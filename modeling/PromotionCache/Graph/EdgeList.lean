import PromotionCache.Graph.BinFiles
import PromotionCache.Lib.Decimal
import PromotionCache.Lib.Rounding

/-!
# Edge lists

`parse_csr_graph` of `edgelist_to_binary.cpp`, which reads a graph from lines with a source, a target and a
weight. The weight is read as a `float`. The arrays are written from the front; they are the lists of what is
written so far.

Reading returns `none` where the file does not say the numbers, and where `node_array` is left: a source that
comes before the one of the line above is looked for without end.
-/

namespace PromotionCache.Graph.EdgelistToBinary
open Lib

/-- `>>` of a character -/
def extractChar (cs : List Char) : Option (Char × List Char) :=
  match cs.dropWhile isSpace with
  | [] => none
  | c :: cs => some (c, cs)

/-- `>>` of a `float`, which fails where the number is too large. -/
def extractFloat (cs : List Char) : Option (ℚ × List Char) := do
  let (q, rest) ← extractDecimal cs
  if |flSigned 24 q| < 2 ^ 128 then some (flSigned 24 q, rest) else none

/-- `(int) weight`. The processor makes the least `int` of a number that is too large for one. -/
def toInt (weight : ℚ) : Int32 :=
  if -2 ^ 31 ≤ truncate weight ∧ truncate weight < 2 ^ 31 then Int32.ofInt (truncate weight) else Int32.minValue

/-- The variables of `parse_csr_graph` that last from line to line, with the rest of the file. -/
structure Reader where
  node : ℕ
  nodeArray : List UInt64
  edgeArray : List UInt64
  edgeValues : List Int32
  file : List Char

/-- `while (node != first) { node++; node_array[node] = i; }` -/
def advance (nodes i first node : ℕ) (nodeArray : List UInt64) : Option (ℕ × List UInt64) :=
  if node = first then some (node, nodeArray)
  else if nodes ≤ node then none
  else advance nodes i first (node + 1) (nodeArray ++ [UInt64.ofNat i])
termination_by nodes - node

/-- The loop over the edges. -/
def readEdge (nodes : ℕ) (s : Reader) (i : ℕ) : Option Reader := do
  let (first, file) ← extractUlong s.file
  let (second, file) ← extractUlong file
  let (weight, file) ← extractFloat file
  let (node, nodeArray) ← advance nodes i first s.node s.nodeArray
  some
    { node
      nodeArray
      edgeArray := s.edgeArray ++ [UInt64.ofNat second]
      edgeValues := s.edgeValues ++ [toInt weight]
      file }

/-- The entries of `node_array` after the loop over the edges; `ret.nodes - 1` is of type `unsigned long`. -/
def finish (nodes edges : ℕ) (s : Reader) : Option (Csr Int32) := do
  let (_, nodeArray) ← advance nodes edges ((nodes + (2 ^ 64 - 1)) % 2 ^ 64) s.node s.nodeArray
  some
    { nodes
      edges
      nodeArray := nodeArray ++ [UInt64.ofNat edges]
      edgeArray := s.edgeArray
      edgeValues := s.edgeValues }

/-- `parse_csr_graph` -/
def parseCsrGraph (file : List Char) : Option (Csr Int32) := do
  let (_, file) ← extractChar file
  let (edges, file) ← extractUlong file
  let (nodes, file) ← extractUlong file
  if 8 * (nodes + 1) < 2 ^ 64 ∧ 8 * edges < 2 ^ 64 then
    let s ← (List.range edges).foldlM (readEdge nodes) ⟨0, [0], [], [], file⟩
    finish nodes edges s
  else none

end PromotionCache.Graph.EdgelistToBinary
