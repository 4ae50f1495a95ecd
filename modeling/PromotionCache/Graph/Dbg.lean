import Mathlib.Logic.Function.Basic
import PromotionCache.Graph.Csr
import PromotionCache.Lib.Rounding

/-!
# Degree-based grouping

`dbg.cpp` gives the vertices of a graph new numbers, group by group: the first group has those of at least 32
times the average degree, the last one the rest. It writes the edges with the new numbers, sorted, as text.
Arithmetic of `float` is rounding to 24 digits; nothing comes near the bounds of its exponent.

An operation returns `none` where an array is left.
-/

namespace PromotionCache.Graph.Dbg
open Lib

/-- `(tuple<int, int, int>) a`, where the entries of `a` are of type `unsigned long` -/
def toInts (a : ℕ × ℕ × ℕ) : ℤ × ℤ × ℤ :=
  (Int.bmod a.1 (2 ^ 32), Int.bmod a.2.1 (2 ^ 32), Int.bmod a.2.2 (2 ^ 32))

/-- `csr_sort` -/
def csrSort (a b : ℕ × ℕ × ℕ) : Bool :=
  let a := toInts a
  let b := toInts b
  a.1 < b.1 || (a.1 = b.1 && (a.2.1 < b.2.1 || (a.2.1 = b.2.1 && a.2.2 < b.2.2)))

/-- `bounds` -/
def bounds : Fin 8 → ℚ := ![32, 16, 8, 4, 2, 1, 1 / 2, 0]

section
variable (G : CsrGraph)

/-- `avg_deg` -/
def avgDeg : ℚ := fl 24 (fl 24 G.edges / fl 24 G.nodes)

/-- `avg_deg*bounds[idx] <= d` -/
def reaches (d : ℕ) (idx : Fin 8) : Bool := fl 24 (avgDeg G * bounds idx) ≤ fl 24 d

/-- The content of a slot of `groups` that holds no vertex. -/
def unset : ℕ := 2 ^ 64 - 1

/-- `indices` and `groups` -/
structure Groups where
  indices : Fin 8 → ℕ
  groups : ℕ → ℕ

/-- The body of the loop of `_kernel_` that groups the vertices, for any comparison of a degree with a bound. -/
def groupBy (test : ℕ → Fin 8 → Bool) (s : Groups) (i : Fin G.nodes) : Option Groups :=
  match (List.finRange 8).find? (test (G.outdegree i)) with
  | none => some s
  | some idx =>
    let slot := idx * G.nodes + s.indices idx
    if slot < 8 * G.nodes then some
      { indices := Function.update s.indices idx (s.indices idx + 1)
        groups := Function.update s.groups slot i }
    else none

/-- The body of that loop. -/
def group : Groups → Fin G.nodes → Option Groups := groupBy G (reaches G)

/-- `while (groups[g_idx] != -1)`; the result is the next number and `ret`. -/
def number (groups : ℕ → ℕ) (gIdx idx : ℕ) (ret : ℕ → ℕ) : Option (ℕ × (ℕ → ℕ)) :=
  if 8 * G.nodes ≤ gIdx then none
  else if groups gIdx = unset then some (idx, ret)
  else if G.nodes ≤ groups gIdx then none
  else number groups (gIdx + 1) (idx + 1) (Function.update ret (groups gIdx) idx)
termination_by 8 * G.nodes - gIdx

/-- `_kernel_`, for any comparison of a degree with a bound, and with what `ret` holds at first -/
def kernelBy (test : ℕ → Fin 8 → Bool) (ret : ℕ → ℕ) : Option (ℕ → ℕ) := do
  let s ← (List.finRange G.nodes).foldlM (groupBy G test) ⟨fun _ => 0, fun _ => unset⟩
  let (_, ret) ← (List.range 8).foldlM (fun (idx, ret) i => number G s.groups (G.nodes * i) idx ret) (0, ret)
  some ret

/-- `_kernel_` -/
def kernel : (ℕ → ℕ) → Option (ℕ → ℕ) := kernelBy G (reaches G)

/-- `avg_deg*bounds[idx] <= d`, with the quotient of the numbers of edges and vertices as `avg_deg` -/
def reachesExact (d : ℕ) (idx : Fin 8) : Bool := (G.edges : ℚ) / G.nodes * bounds idx ≤ fl 24 d

/-- The group that this puts a vertex in. -/
def groupExact (v : Fin G.nodes) : Option (Fin 8) := (List.finRange 8).find? (reachesExact G (G.outdegree v))

/-- `_kernel_`, with the quotient of the numbers of edges and vertices as `avg_deg` -/
def kernelExact : (ℕ → ℕ) → Option (ℕ → ℕ) := kernelBy G (reachesExact G)

/-- `sorted_graph` before it is sorted -/
def relabelled (ret : ℕ → ℕ) : List (ℕ × ℕ × ℕ) :=
  (G.scan (List.finRange G.nodes)).map fun ue =>
    (ret ue.1, ret (G.edgeArray ue.2), G.edgeValues ue.2)

/-- `sorted_graph`; edges that come neither before nor after one another are the same for numbers of type
    `int`. -/
def sortedGraph (ret : ℕ → ℕ) : List (ℕ × ℕ × ℕ) :=
  (relabelled G ret).mergeSort fun a b => !csrSort b a

/-- A line of `dbg.txt`. -/
def edgeLine (a : ℕ × ℕ × ℕ) : List Char :=
  Nat.toDigits 10 a.1 ++ (' ' :: (Nat.toDigits 10 a.2.1 ++ (' ' :: (Nat.toDigits 10 a.2.2 ++ ['\n']))))

/-- `dbg.txt` for these edges -/
def dbgText (edges nodes : ℕ) (sorted : List (ℕ × ℕ × ℕ)) : List Char :=
  'c' :: ' ' :: (Nat.toDigits 10 edges ++ (' ' :: (Nat.toDigits 10 nodes ++ ('\n' :: sorted.flatMap edgeLine))))

/-- `main` of `dbg.cpp`: what it writes into `dbg.txt`, with what `ret` holds at first -/
def dbg (ret : ℕ → ℕ) : Option (List Char) := do
  let ret ← kernel G ret
  some (dbgText G.edges G.nodes (sortedGraph G ret))

end

end PromotionCache.Graph.Dbg
