import PromotionCache.Lib.Strtol
import PromotionCache.Lib.While
import PromotionCache.Graph.EdgeListSpec

/-!
# Free blocks

`print_buddyinfo` of `fragm.c`, which reads the lines of `/proc/buddyinfo` and adds up the free blocks of their
zones: the pages of each order in a table, and the blocks of one order that they make as its result.

Two parts of the memory are there without being written: `num_frags`, and what is behind the characters that `read`
puts into `buf`. They are arguments of the model. Only the numbers of the table are kept that the doubles in its
other columns come from.
-/

namespace PromotionCache.Utils.Buddyinfo
open Lib Graph.EdgelistToBinary

/-- `MAX_ORDER` -/
def maxOrder : ℕ := 11

/-- `PAGE_SIZE` -/
def pageSize : ℕ := 4096

/-- What a line says of a zone: `node` and `n`. -/
structure Zone where
  node : ℤ
  free : Fin maxOrder → UInt64

/-- `%s` -/
def scanWord (cs : List Char) : Option (List Char × List Char) :=
  plus (fun c => !isSpace c) (cs.dropWhile isSpace)

/-- So many `%lu` -/
def scanCounts : (k : ℕ) → List Char → Option ((Fin k → UInt64) × List Char)
  | 0, cs => some (Fin.elim0, cs)
  | k + 1, cs => do
    let (n, cs) ← scanUlong cs
    let (ns, cs) ← scanCounts k cs
    some (Fin.cons n ns, cs)

/-- `sscanf`, which gives 15 if all conversions match; then the line break of the format skips white space, and what
    is left shows what `%n` says. -/
def scanZone (cs : List Char) : Option (Zone × List Char) := do
  let (_, cs) ← scanWord cs
  let (node, cs) ← scanInt cs
  let cs ← lit [','] cs
  let (_, cs) ← scanWord cs
  let (_, cs) ← scanWord cs
  let (free, cs) ← scanCounts maxOrder cs
  some (⟨node, free⟩, cs.dropWhile isSpace)

/-- `nr` and `num_frags` -/
structure Sums where
  nr : Fin maxOrder → UInt64
  numFrags : Int32

/-- `num_frags += nr*pow(2, k)`, in doubles -/
def addFrags (numFrags : Int32) (nr : UInt64) (k : ℕ) : Int32 :=
  toInt (flSigned 53 (numFrags.toInt + fl 53 (fl 53 nr.toNat * 2 ^ k)))

/-- The number of fragments, after the blocks of one order. -/
def addOrder (order : ℕ) (nr : Fin maxOrder → UInt64) (numFrags : Int32) (i : Fin maxOrder) : Int32 :=
  if order ≤ i then addFrags numFrags (nr i) (i - order) else numFrags

/-- What a line adds. -/
def addZone (order : ℕ) (nodeInput : ℤ) (s : Sums) (z : Zone) : Sums :=
  if nodeInput ≠ -1 then
    if z.node = nodeInput then
      { nr := z.free
        numFrags := (List.finRange maxOrder).foldl (addOrder order z.free) s.numFrags }
    else s
  else { s with nr := fun i => s.nr i + z.free i }

/-- The variables of the loop over the lines. -/
structure Scan where
  off : ℕ
  sums : Sums
  stopped : Bool

/-- `off < len`, and no `break` -/
def more (text : List Char) (s : Scan) : Bool := !s.stopped && s.off < text.length

/-- The body of the loop over the lines. -/
def scanLine (order : ℕ) (nodeInput : ℤ) (text behind : List Char) (s : Scan) : Option Scan :=
  let buf := (text ++ behind).drop s.off
  match scanZone buf with
  | none => some { s with stopped := true }
  | some (z, rest) =>
    some { s with off := s.off + (buf.length - rest.length), sums := addZone order nodeInput s.sums z }

/-- A line of the table, and the numbers that its columns are made of. -/
structure Row where
  order : Fin maxOrder
  pages : UInt64
  bytes : UInt64
  cumulative : UInt64
  total : UInt64

/-- The table and the result. -/
structure Report where
  rows : List Row
  ret : Int32

/-- `(PAGE_SIZE << i) * nr[i]` -/
def bytesOf (nr : Fin maxOrder → UInt64) (i : Fin maxOrder) : UInt64 :=
  UInt64.ofNat (pageSize <<< (i : ℕ)) * nr i

/-- The loops over the orders. -/
def rowsOf (nr : Fin maxOrder → UInt64) : List Row :=
  let total := (List.finRange maxOrder).foldl (fun total i => total + bytesOf nr i) 0
  ((List.finRange maxOrder).foldl (fun (rows, cumulative) i =>
    let cumulative := cumulative + bytesOf nr i
    (rows ++ [⟨i, nr i, bytesOf nr i, cumulative, total⟩], cumulative)) (([], 0) : List Row × UInt64)).1

/-- `print_buddyinfo`, where `text` is what `read` gives, if the file opens. -/
def printBuddyinfo (order : ℕ) (nodeInput : ℤ) (numFrags : Int32) (file : Option (List Char)) (behind : List Char) :
    Option Report :=
  match file with
  | none => some ⟨[], -1⟩
  | some [] => some ⟨[], -1⟩
  | some text => do
    let s ← whileLoop (more text) (scanLine order nodeInput text behind) (text.length + 1)
      ⟨0, ⟨fun _ => 0, numFrags⟩, false⟩
    some ⟨rowsOf s.sums.nr, s.sums.numFrags⟩

end PromotionCache.Utils.Buddyinfo
