import PromotionCache.Graph.Csr
import PromotionCache.Lib.Machine
import PromotionCache.Lib.Stopping
import PromotionCache.Reuse.Track
import Mathlib.Logic.Function.Basic

/-!
# Tracked addresses

The kernels of `reuse/bfs`, `reuse/sssp` and `reuse/pagerank`, run by one thread, with the addresses that they pass
to `track_access` as a log, and `launch_app` of `reuse/reuse.cpp`. Arrays have addresses, and those of a pointer
that is not set can be any. A kernel stops where it writes past the end of a worklist, where an `int` overflows, and
where a read through such a pointer ends the program.
-/

namespace PromotionCache.Reuse
open Lib PromotionCache.Graph

/-- The arrays of the three applications; `outR` is the one that `pagerank` has as `ret`. -/
inductive Arr where
  | nodeArray
  | edgeArray
  | edgeValues
  | ret
  | inWl
  | outWl
  | x
  | inR
  | outR
  deriving DecidableEq

variable {G : CsrGraph}

/-- The applications, with `start_seed` where it is used. -/
inductive App (G : CsrGraph) where
  | bfs (startSeed : Fin G.nodes)
  | sssp (startSeed : Fin G.nodes)
  | pagerank

/-- The number of slots of either worklist. -/
def App.capacity : App G → ℕ
  | .bfs _ => G.nodes * 2
  | .sssp _ => G.nodes * 5
  | .pagerank => G.nodes

/-- The bytes of an array; `none` where the application leaves the pointer unset. The weights are allocated if
    `edge_values` is 0, that is if the application is not `sssp`. -/
def App.bytes : App G → Arr → Option ℕ
  | _, .nodeArray => some (8 * (G.nodes + 1))
  | _, .edgeArray => some (8 * G.edges)
  | .sssp _, .edgeValues => none
  | _, .edgeValues => some (8 * G.edges)
  | app, .inWl => some (8 * app.capacity)
  | app, .outWl => some (8 * app.capacity)
  | .pagerank, .ret => none
  | _, .ret => some (8 * G.nodes)
  | .pagerank, _ => some (8 * G.nodes)
  | _, _ => none

/-- The alignment that `posix_memalign` was asked for, or that of `malloc`. -/
def alignment : Arr → ℕ
  | .inWl => 2 ^ 21
  | .outWl => 2 ^ 21
  | .x => 2 ^ 21
  | .inR => 2 ^ 21
  | _ => 16

/-- The addresses of the arrays, and what a read of `edge_values` gives, if it does not end the program. -/
structure Layout (app : App G) where
  start : Arr → ℕ
  apart : ∀ a b, a ≠ b → ∀ m ∈ app.bytes a, ∀ n ∈ app.bytes b, start a + m ≤ start b ∨ start b + n ≤ start a
  aligned : ∀ a, (app.bytes a).isSome → alignment a ∣ start a
  weights : Fin G.edges → Option ℕ

/-- `&a[i]` -/
def Layout.addr {app : App G} (L : Layout app) (a : Arr) (i : ℕ) : ℕ := L.start a + 8 * i

/-- The variables of a kernel, with the contents of its arrays as `data`. A worklist is what is below its index; the
    two change places with every pass. -/
structure Kernel (G : CsrGraph) (D : Type) where
  data : D
  inWl : List (Fin G.nodes)
  outWl : List (Fin G.nodes)
  inAt : ℕ
  outAt : ℕ
  hop : ℕ
  log : List ℕ

section
variable {D : Type}

/-- Calls of `track_access`. -/
def Kernel.touch (s : Kernel G D) (addrs : List ℕ) : Kernel G D := { s with log := s.log ++ addrs }

/-- `out_wl[index] = v`, with the index one up. -/
def Kernel.push (capacity : ℕ) (s : Kernel G D) (v : Fin G.nodes) : Except (Kernel G D) (Kernel G D) :=
  if s.outWl.length < capacity then .ok { s with outWl := s.outWl ++ [v] } else .error s

/-- The end of a pass: the worklists are swapped, and there is one more hop. -/
def Kernel.swap (s : Kernel G D) : Except (Kernel G D) (Kernel G D) :=
  if s.hop + 1 < intBound then
    .ok { s with inWl := s.outWl, outWl := [], inAt := s.outAt, outAt := s.inAt, hop := s.hop + 1 }
  else .error s

/-- A pass over the input worklist. -/
def Kernel.pass (entry : ℕ → Fin G.nodes → Kernel G D → Except (Kernel G D) (Kernel G D)) (s : Kernel G D) :
    Except (Kernel G D) (Kernel G D) :=
  (List.range s.inWl.length).foldlM (fun s i =>
    match s.inWl[i]? with
    | none => .error s
    | some node => entry i node s) s

/-- `*in_index > 0` -/
def Kernel.running (s : Kernel G D) : Bool := 0 < s.inWl.length

end

namespace Bfs
variable {seed : Fin G.nodes} (L : Layout (.bfs seed : App G))

/-- `(unsigned long)-1` -/
def unset : ℕ := 2 ^ 64 - 1

/-- The body of the loop over the edges of an entry. -/
def visit (s : Kernel G (Fin G.nodes → ℕ)) (e : Fin G.edges) :
    Except (Kernel G (Fin G.nodes → ℕ)) (Kernel G (Fin G.nodes → ℕ)) := do
  let edgeIndex := G.edgeArray e
  let v := s.data edgeIndex
  let s := s.touch [L.addr .edgeArray e, L.addr .ret edgeIndex]
  if v = unset then
    let index := s.outWl.length
    let s ← { s with data := Function.update s.data edgeIndex s.hop }.push (G.nodes * 2) edgeIndex
    .ok (s.touch [L.addr .ret edgeIndex, s.outAt + 8 * index])
  else .ok s

/-- The body of the loop over the worklist. -/
def entry (i : ℕ) (node : Fin G.nodes) (s : Kernel G (Fin G.nodes → ℕ)) :
    Except (Kernel G (Fin G.nodes → ℕ)) (Kernel G (Fin G.nodes → ℕ)) :=
  (G.edgesOf node).foldlM (visit L)
    (s.touch [s.inAt + 8 * i, L.addr .nodeArray node, L.addr .nodeArray (node + 1)])

/-- `init_bfs` -/
def init : Kernel G (Fin G.nodes → ℕ) where
  data := Function.update (fun _ => unset) seed 0
  inWl := [seed]
  outWl := []
  inAt := L.start .inWl
  outAt := L.start .outWl
  hop := 1
  log := []

/-- `bfs`, so many passes of it -/
def bfs (fuel : ℕ) : Except (Kernel G (Fin G.nodes → ℕ)) (Kernel G (Fin G.nodes → ℕ)) :=
  boundedLoop Kernel.running (fun s => s.pass (entry L) >>= Kernel.swap) fuel (init L)

end Bfs

namespace Sssp
variable {seed : Fin G.nodes} (L : Layout (.sssp seed : App G))

/-- `WEIGHT_MAX` -/
def weightMax : ℕ := 1073741823

/-- The body of the loop over the edges of an entry. -/
def relax (node : Fin G.nodes) (s : Kernel G (Fin G.nodes → ℕ)) (e : Fin G.edges) :
    Except (Kernel G (Fin G.nodes → ℕ)) (Kernel G (Fin G.nodes → ℕ)) := do
  let edgeIndex := G.edgeArray e
  let currDist := s.data edgeIndex
  match L.weights e with
  | none => .error s
  | some weight =>
    let newDist := ulong (s.data node + weight)
    let s := s.touch
      [L.addr .edgeArray e, L.addr .ret edgeIndex, L.addr .ret node, L.addr .edgeValues e]
    if newDist < currDist then
      let index := s.outWl.length
      let s ← { s with data := Function.update s.data edgeIndex newDist }.push (G.nodes * 5) edgeIndex
      .ok (s.touch [L.addr .ret edgeIndex, s.outAt + 8 * index])
    else .ok s

/-- The body of the loop over the worklist. -/
def entry (i : ℕ) (node : Fin G.nodes) (s : Kernel G (Fin G.nodes → ℕ)) :
    Except (Kernel G (Fin G.nodes → ℕ)) (Kernel G (Fin G.nodes → ℕ)) :=
  (G.edgesOf node).foldlM (relax L node)
    (s.touch [s.inAt + 8 * i, L.addr .nodeArray node, L.addr .nodeArray (node + 1)])

/-- `init_sssp` -/
def init : Kernel G (Fin G.nodes → ℕ) where
  data := Function.update (fun _ => weightMax) seed 0
  inWl := [seed]
  outWl := []
  inAt := L.start .inWl
  outAt := L.start .outWl
  hop := 1
  log := []

/-- `sssp`, so many passes of it -/
def sssp (fuel : ℕ) : Except (Kernel G (Fin G.nodes → ℕ)) (Kernel G (Fin G.nodes → ℕ)) :=
  boundedLoop Kernel.running (fun s => s.pass (entry L) >>= Kernel.swap) fuel (init L)

end Sssp

namespace Pagerank
variable (L : Layout (.pagerank : App G))

/-- `alpha_pr` -/
def alphaPr : Float := 0.85

/-- `epsilon` -/
def epsilon : Float := 0.01

/-- The arrays of `pagerank`; `in_r` and `ret` change places with every pass. -/
structure Ranks (G : CsrGraph) where
  x : Fin G.nodes → Float
  inR : Fin G.nodes → Float
  ret : Fin G.nodes → Float
  inRAt : ℕ
  retAt : ℕ

/-- The body of the loop over the edges of an entry. -/
def visit (newR : Float) (s : Kernel G (Ranks G)) (e : Fin G.edges) :
    Except (Kernel G (Ranks G)) (Kernel G (Ranks G)) := do
  let w := G.edgeArray e
  let rOld := s.data.ret w
  let ret := Function.update s.data.ret w (rOld + newR)
  let s := { s with data.ret := ret }.touch
    [L.addr .edgeArray e, s.data.retAt + 8 * w, s.data.retAt + 8 * w]
  if epsilon ≤ ret w ∧ rOld < epsilon then
    let index := s.outWl.length
    let s ← s.push G.nodes w
    .ok (s.touch [s.outAt + 8 * index])
  else .ok s

/-- The body of the loop over the worklist. -/
def entry (i : ℕ) (v : Fin G.nodes) (s : Kernel G (Ranks G)) : Except (Kernel G (Ranks G)) (Kernel G (Ranks G)) := do
  let s := { s with data.x := Function.update s.data.x v (s.data.x v + s.data.inR v) }.touch
    [s.inAt + 8 * i, L.addr .x v, s.data.inRAt + 8 * v, L.addr .x v, L.addr .nodeArray v,
      L.addr .nodeArray (v + 1)]
  let newR := s.data.inR v * alphaPr / (UInt64.ofNat (G.outdegree v)).toFloat
  let s ← (G.edgesOf v).foldlM (visit L newR) s
  .ok ({ s with data.inR := Function.update s.data.inR v 0 }.touch [s.data.inRAt + 8 * v])

/-- `(*in_r)[w] = (*in_r)[w] + 1.0/G_v` for the edges of `v` -/
def initVertex (inR : Fin G.nodes → Float) (v : Fin G.nodes) : Fin G.nodes → Float :=
  (G.targets v).foldl (fun inR w =>
    Function.update inR w (inR w + 1.0 / (UInt64.ofNat (G.outdegree v)).toFloat)) inR

/-- `init_pagerank` -/
def init : Kernel G (Ranks G) where
  data :=
    { x := fun _ => 1 - alphaPr
      inR := fun v => (1 - alphaPr) * alphaPr * (List.finRange G.nodes).foldl initVertex (fun _ => 0) v
      ret := fun _ => 0
      inRAt := L.start .inR
      retAt := L.start .outR }
  inWl := List.finRange G.nodes
  outWl := []
  inAt := L.start .inWl
  outAt := L.start .outWl
  hop := 1
  log := []

/-- The end of a pass, which also swaps `in_r` and `ret`. -/
def swap (s : Kernel G (Ranks G)) : Except (Kernel G (Ranks G)) (Kernel G (Ranks G)) :=
  { s with data :=
    { x := s.data.x
      inR := s.data.ret
      ret := s.data.inR
      inRAt := s.data.retAt
      retAt := s.data.inRAt } : Kernel G (Ranks G) }.swap

/-- `pagerank`, so many passes of it -/
def pagerank (fuel : ℕ) : Except (Kernel G (Ranks G)) (Kernel G (Ranks G)) :=
  boundedLoop Kernel.running (fun s => s.pass (entry L) >>= swap) fuel (init L)

end Pagerank

/-- The addresses that are tracked in so many passes. -/
def tracked : (app : App G) → Layout app → ℕ → List ℕ
  | .bfs _, L, fuel => (outcome (Bfs.bfs L fuel)).log
  | .sssp _, L, fuel => (outcome (Sssp.sssp L fuel)).log
  | .pagerank, L, fuel => (outcome (Pagerank.pagerank L fuel)).log

/-- `reuse_mem_regions` after `update_mem_regions` -/
def memRegions {app : App G} (L : Layout app) : List (ℕ × ℕ) :=
  [(L.start .nodeArray, L.addr .nodeArray (G.nodes + 1)), (L.start .edgeArray, L.addr .edgeArray G.edges),
    (L.start .ret, L.addr .ret G.nodes), (L.start .inWl, L.addr .inWl (G.nodes * 2)),
    (L.start .outWl, L.addr .outWl (G.nodes * 2))]

/-- The pages of a region for which `summarize` prints a line. -/
def summarized (reusePageSize : ℕ) (reuseMap : UnorderedMap ℕ Entry) (region : ℕ × ℕ) : List ℕ :=
  let first := region.1 / reusePageSize
  (List.range' first ((region.2 + reusePageSize - 1) / reusePageSize - first)).filter reuseMap.contains

end PromotionCache.Reuse
