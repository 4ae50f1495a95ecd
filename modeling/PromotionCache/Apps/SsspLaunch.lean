import PromotionCache.Graph.BinFiles
import PromotionCache.Lib.Machine
import PromotionCache.Lib.While

/-!
# Launching single-source shortest paths

`launch_app` of `launch/sssp/main.cpp` and of `reuse/reuse.cpp`: the files of a dataset are read, `ret`
and the worklists are set up, and the kernel runs. Here the arrays are those in memory, as the files say
(compare `Apps/Sssp`, over graphs that are well formed), so that an operation returns `none` where it goes
past the end of an array, where an `int` overflows, and where it reads a weight through a pointer that is
not set.

`edge_values` of `parse_bin_files` is 0 if the weights are to be loaded. The one program passes 0, the
other passes whether the application is `sssp`.
-/

namespace PromotionCache.Apps.SsspLaunch
open Lib PromotionCache.Graph

/-- What `malloc` leaves in the arrays of the graph and in `ret`. -/
structure Memory extends Heap where
  ret : ℕ → UInt64

/-- `csr_graph` as `parse_bin_files` returns it; the pointer to the weights may not be set. -/
structure Parsed where
  nodes : ℕ
  edges : ℕ
  nodeArray : List UInt64
  edgeArray : List UInt64
  edgeValues : Option (List UInt64)

/-- `parse_bin_files` -/
def parseBinFiles (heap : Heap) (files : Dataset) (edgeValues : ℕ) : Option Parsed :=
  (Graph.parseBinFiles heap files).map fun G =>
    { nodes := G.nodes
      edges := G.edges
      nodeArray := G.nodeArray
      edgeArray := G.edgeArray
      edgeValues := if edgeValues = 0 then some G.edgeValues else none }

/-- `WEIGHT_MAX` -/
def weightMax : UInt64 := 1073741823

/-- The conversion to `int`. -/
def toInt (n : ℕ) : ℤ := Int.bmod n (2 ^ 32)

/-- The conversion of an `int` to `unsigned long`. -/
def ofInt (n : ℤ) : ℕ := (n % 2 ^ 64).toNat

/-- The arrays that the kernel writes to; a worklist is what is below its index, in an array of
    `capacity` elements. -/
structure State where
  ret : List UInt64
  capacity : ℕ
  inWl : List UInt64
  outWl : List UInt64
  hop : ℕ

/-- `for (unsigned long i = 0; i < num_nodes; i++) ret[i] = WEIGHT_MAX` -/
def fill (numNodes : ℕ) (ret : List UInt64) : List UInt64 :=
  List.replicate numNodes weightMax ++ ret.drop numNodes

/-- The body of the loop over the seeds. -/
def addSeed (s : State) (i : ℕ) : Option State :=
  if s.inWl.length < s.capacity ∧ i < s.ret.length then
    some { s with inWl := s.inWl ++ [.ofNat i], ret := s.ret.set i 0 }
  else none

/-- `for (unsigned long i = start_seed; i < start_seed+SEEDS; i++)`, with one seed. -/
def addSeeds (s : State) (startSeed : ℤ) : Option State :=
  if startSeed + 1 < intBound then
    (List.range' (ofInt startSeed) (ofInt (startSeed + 1) - ofInt startSeed)).foldlM addSeed s
  else none

/-- The body of the loop over the edges of `node`. -/
def relax (G : Parsed) (node : UInt64) (s : State) (e : ℕ) : Option State := do
  let edgeIndex ← G.edgeArray[e]?
  let currDist ← s.ret[edgeIndex.toNat]?
  let dist ← s.ret[node.toNat]?
  let values ← G.edgeValues
  let value ← values[e]?
  let newDist := dist + value
  if newDist < currDist then
    if s.outWl.length < s.capacity then
      some { s with ret := s.ret.set edgeIndex.toNat newDist, outWl := s.outWl ++ [edgeIndex] }
    else none
  else some s

/-- The body of the loop over the worklist. -/
def entry (G : Parsed) (s : State) (node : UInt64) : Option State := do
  let first ← G.nodeArray[node.toNat]?
  let last ← G.nodeArray[node.toNat + 1]?
  (List.range' first.toNat (last.toNat - first.toNat)).foldlM (relax G node) s

/-- The body of the `while`. -/
def epoch (G : Parsed) (s : State) : Option State := do
  let t ← s.inWl.foldlM (entry G) s
  if t.hop + 1 < intBound then some { t with inWl := t.outWl, outWl := [], hop := t.hop + 1 }
  else none

/-- `*in_index > 0` -/
def running (s : State) : Bool := 0 < s.inWl.length

/-- `sssp`, by one thread; the calls of `track_access` in `reuse/sssp/sssp.h` take addresses only. -/
def sssp (G : Parsed) (fuel : ℕ) (s : State) : Option State := whileLoop running (epoch G) fuel s

namespace Launch

/-- `init_sssp` of `launch/sssp/sssp.h`. The number of vertices is an `int`, and so is the size of the
    worklists; a negative one is no bound of a loop that stays within `ret`. -/
def initSssp (numNodes startSeed : ℤ) (ret : List UInt64) : Option State :=
  if 0 ≤ numNodes ∧ numNodes * 5 < intBound ∧ numNodes ≤ ret.length then
    addSeeds
      { ret := fill numNodes.toNat ret
        capacity := (numNodes * 5).toNat
        inWl := []
        outWl := []
        hop := 1 } startSeed
  else none

end Launch

namespace Reuse

/-- `init_sssp` of `reuse/sssp/sssp.h` -/
def initSssp (numNodes : ℕ) (startSeed : ℤ) (ret : List UInt64) : Option State :=
  if numNodes ≤ ret.length then
    addSeeds
      { ret := fill numNodes ret
        capacity := ulong (numNodes * 5 * 8) / 8
        inWl := []
        outWl := []
        hop := 1 } startSeed
  else none

/-- `edge_values` of `launch_app` -/
def edgeValues (app : String) : Bool := if app == "sssp" then true else false

end Reuse

section
variable {G : Parsed} {s t : State} {n : ℤ} {i fuel : ℕ}

variable {mem : Memory} {files : Dataset} {startSeed : UInt64}

/-- Zeroed memory. -/
def Memory.zero : Memory := ⟨Heap.zero, fun _ => 0⟩

/-- The files of a graph with an edge of weight 5 from 0 to 1. -/
def pair : Dataset where
  numNodesEdges := ['2', '\n', '1', '\n']
  nodeArray := [0, 0, 0, 0, 1, 0, 0, 0, 1, 0, 0, 0]
  edgeArray := [1, 0, 0, 0]
  edgeValues := [5, 0, 0, 0]

end
end PromotionCache.Apps.SsspLaunch
