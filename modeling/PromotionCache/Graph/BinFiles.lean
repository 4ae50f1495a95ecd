import PromotionCache.Graph.Csr
import PromotionCache.Lib.Bytes
import PromotionCache.Lib.Text

/-!
# Binary CSR files

`print_binary_file` of `edgelist_to_binary.cpp`, which writes a graph, and `parse_bin_files` of
`utils/common.h`, which every application reads it with. Both decide by the number of edges whether an
element of a file has four or eight bytes, each with a `MAX_EDGES` of its own, and the weights have four
bytes whatever the writer decides. An element of an array in memory has eight bytes; what a read does not
write there is what `malloc` left (`Heap`).

An operation returns `none` where a file does not say two numbers, a size does not fit in 64 bits, or a
loop of the writer does not end.
-/

namespace PromotionCache.Graph
open Lib

/-- `csr_graph`, with the type of the weights, as the arrays in memory. -/
@[ext]
structure Csr (W : Type) where
  nodes : ℕ
  edges : ℕ
  nodeArray : List UInt64
  edgeArray : List UInt64
  edgeValues : List W
  deriving DecidableEq

/-- The files of a dataset, by their names. -/
structure Dataset where
  numNodesEdges : List Char
  nodeArray : List UInt8
  edgeArray : List UInt8
  edgeValues : List UInt8

/-- The arrays of a graph, with the weights as the type has them. -/
def CsrGraph.arrays {W : Type} (G : CsrGraph) (weight : ℕ → W) : Csr W where
  nodes := G.nodes
  edges := G.edges
  nodeArray := List.ofFn fun i => UInt64.ofNat (G.nodeArray i)
  edgeArray := List.ofFn fun e => UInt64.ofNat (G.edgeArray e)
  edgeValues := List.ofFn fun e => weight (G.edgeValues e)

namespace EdgelistToBinary

/-- `MAX_EDGES` of `edgelist_to_binary.cpp` -/
def maxEdges : ℕ := 4294967295

/-- The bytes of an element of the first two files. -/
def width (edges : ℕ) : ℕ := if maxEdges < edges then 8 else 4

/-- `print_binary_file`. The loops that narrow the arrays count in an `unsigned int`. -/
def printBinaryFile (G : Csr Int32) : Option Dataset :=
  if G.edges ≤ maxEdges ∧ 2 ^ 32 ≤ G.nodes + 1 then none
  else some
    { numNodesEdges := Nat.toDigits 10 G.nodes ++ ('\n' :: (Nat.toDigits 10 G.edges ++ ['\n']))
      nodeArray := G.nodeArray.flatMap fun n => toBytes (width G.edges) n.toNat
      edgeArray := G.edgeArray.flatMap fun e => toBytes (width G.edges) e.toNat
      edgeValues := G.edgeValues.flatMap fun w => toBytes 4 w.toUInt32.toNat }

end EdgelistToBinary

/-- `MAX_EDGES` of `utils/common.h` -/
def maxEdges : ℕ := 4094967295

/-- The contents of the memory that `malloc` returns, by array and element. -/
structure Heap where
  nodeArray : ℕ → UInt64
  edgeArray : ℕ → UInt64
  edgeValues : ℕ → UInt64

/-- Zeroed memory. -/
def Heap.zero : Heap := ⟨fun _ => 0, fun _ => 0, fun _ => 0⟩

/-- `fread(&array[n], width, 1, fp)` for the elements of an array one after the other. At the end of the
    file what is left of it is still copied. -/
def freadArray (width : ℕ) : List UInt64 → List UInt8 → List UInt64
  | [], _ => []
  | slot :: slots, file =>
    overwrite slot (file.take width) :: freadArray width slots (file.drop width)

/-- The bytes of an element of the three files. -/
def width (edges : ℕ) : ℕ := if maxEdges < edges then 8 else 4

/-- The elements of an array that `malloc` returned. -/
def malloc (contents : ℕ → UInt64) (n : ℕ) : List UInt64 := (List.range n).map contents

/-- The numbers of `num_nodes_edges.txt`, if arrays of these sizes can be asked for. -/
def readSizes (files : Dataset) : Option (ℕ × ℕ) := do
  let (nodes, rest) ← extractUlong files.numNodesEdges
  let (edges, _) ← extractUlong rest
  if 8 * (nodes + 1) < 2 ^ 64 ∧ 8 * edges < 2 ^ 64 then some (nodes, edges) else none

/-- The rest of `parse_bin_files`, with `edge_values = 0`. -/
def readArrays (heap : Heap) (files : Dataset) (nodes edges : ℕ) : Csr UInt64 where
  nodes
  edges
  nodeArray :=
    (freadArray (width edges) (malloc heap.nodeArray (nodes + 1)) files.nodeArray).set 0 0
  edgeArray := freadArray (width edges) (malloc heap.edgeArray edges) files.edgeArray
  edgeValues := freadArray (width edges) (malloc heap.edgeValues edges) files.edgeValues

/-- `parse_bin_files`, with `edge_values = 0`. -/
def parseBinFiles (heap : Heap) (files : Dataset) : Option (Csr UInt64) :=
  (readSizes files).map fun (nodes, edges) => readArrays heap files nodes edges

section
variable {w i : ℕ} {slots : List UInt64} {file : List UInt8}

/-- `malloc` gives as many words as it was asked for. -/
@[simp] lemma length_malloc {contents : ℕ → UInt64} {n : ℕ} : (malloc contents n).length = n := by
  simp [malloc]

/-- Reading a file does not change the length of the array. -/
@[simp] lemma length_freadArray : (freadArray w slots file).length = slots.length := by
  induction slots generalizing file with
  | nil => rfl
  | cons slot slots ih => rw [freadArray, List.length_cons, ih, List.length_cons]

/-- An element of the array, from its bytes of the file. -/
lemma getElem?_freadArray :
    (freadArray w slots file)[i]? =
      slots[i]?.map fun slot => overwrite slot ((file.drop (w * i)).take w) := by
  induction slots generalizing file i with
  | nil => simp [freadArray]
  | cons slot slots ih =>
    cases i with
    | zero => simp [freadArray]
    | succ i =>
      rw [freadArray, List.getElem?_cons_succ, ih, List.getElem?_cons_succ, List.drop_drop,
        Nat.mul_succ, Nat.add_comm]

/-- Elements written with the width they are read with, to memory of elements of that width. -/
lemma freadArray_of_lt (values : List ℕ) (fit : ∀ v ∈ values, v < 256 ^ w) (len : slots.length = values.length)
    (narrow : ∀ s ∈ slots, s.toNat < 256 ^ w) :
    freadArray w slots (values.flatMap (toBytes w)) = values.map UInt64.ofNat := by
  induction values generalizing slots with
  | nil =>
    obtain rfl := List.length_eq_zero_iff.mp len
    rfl
  | cons v values ih =>
    obtain ⟨slot, slots, rfl⟩ := List.exists_cons_of_length_eq_add_one len
    rw [List.forall_mem_cons] at fit narrow
    have bytes : (toBytes w v).length = w := length_toBytes
    rw [List.flatMap_cons, freadArray, List.take_left' bytes, List.drop_left' bytes,
      ih fit.2 (Nat.succ.inj len) narrow.2, overwrite_of_lt (by rw [bytes]; exact narrow.1), ofBytes_toBytes,
      Nat.mod_eq_of_lt fit.1, List.map_cons]

/-- Zeroed memory is memory of elements of any width. -/
lemma freadArray_zero (values : List ℕ) (fit : ∀ v ∈ values, v < 256 ^ w) :
    freadArray w (malloc (fun _ => 0) values.length) (values.flatMap (toBytes w)) =
      values.map UInt64.ofNat := by
  refine freadArray_of_lt values fit length_malloc fun s mem => ?_
  obtain ⟨_, _, rfl⟩ := List.mem_map.mp mem
  exact Nat.pow_pos (by decide)

/-- Each number takes as many bytes as it is wide. -/
lemma length_flatMap_toBytes (values : List ℕ) :
    (values.flatMap (toBytes w)).length = values.length * w := by
  induction values with
  | nil => simp
  | cons v values ih =>
    rw [List.flatMap_cons, List.length_append, ih, length_toBytes, List.length_cons, Nat.succ_mul,
      Nat.add_comm]

/-- Whole elements of a file. -/
lemma drop_flatMap_toBytes (values : List ℕ) :
    (values.flatMap (toBytes w)).drop (w * i) = (values.drop i).flatMap (toBytes w) := by
  induction i generalizing values with
  | zero => simp
  | succ i ih =>
    cases values with
    | nil => simp
    | cons v values =>
      have len : (toBytes w v).length = w := length_toBytes
      rw [List.flatMap_cons, Nat.mul_succ, Nat.add_comm, ← List.drop_drop, List.drop_left' len, ih,
        List.drop_succ_cons]

/-- Two elements of four bytes read as one of eight. -/
lemma ofBytes_pair (values : List ℕ) (fit : ∀ v ∈ values, v < 2 ^ 32) :
    ofBytes (((values.flatMap (toBytes 4)).drop (8 * i)).take 8) =
      values.getD (2 * i) 0 + 2 ^ 32 * values.getD (2 * i + 1) 0 := by
  have single : ∀ v ∈ values, ofBytes (toBytes 4 v) = v := fun v hv => by
    rw [ofBytes_toBytes]
    exact Nat.mod_eq_of_lt (fit v hv)
  have eight : 8 * i = 4 * (2 * i) := by omega
  have heads : values.getD (2 * i) 0 = (values.drop (2 * i)).getD 0 0 := by simp
  have nexts : values.getD (2 * i + 1) 0 = (values.drop (2 * i)).getD 1 0 := by simp
  rw [eight, drop_flatMap_toBytes, heads, nexts]
  have sub : ∀ v ∈ values.drop (2 * i), v ∈ values := fun v => List.mem_of_mem_drop
  match values.drop (2 * i), sub with
  | [], _ => rfl
  | [a], sub =>
    have len : (toBytes 4 a).length ≤ 8 := by rw [length_toBytes]; omega
    rw [List.flatMap_singleton, List.take_of_length_le len, single a (sub a (by simp))]
    rfl
  | a :: b :: rest, sub =>
    have split : ((a :: b :: rest).flatMap (toBytes 4)).take 8 = toBytes 4 a ++ toBytes 4 b := by
      rw [List.flatMap_cons, List.flatMap_cons, ← List.append_assoc]
      exact List.take_left' (by simp)
    rw [split, ofBytes_append, single a (sub a (by simp)), single b (sub b (by simp)),
      length_toBytes]
    rfl

end

end PromotionCache.Graph
