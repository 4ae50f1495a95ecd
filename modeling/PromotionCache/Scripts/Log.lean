import Mathlib.Data.List.Infix
import PromotionCache.Pcc.Listings
import PromotionCache.Lib.Text

/-!
# The log of the simulator and how the scripts read it

What `cout` prints, line by line, and the loop of `process_file` in `get_promotions.py` and
`get_demotions.py`, which collects the candidates under the times at which they are listed. The scripts
differ in what they keep of a candidate. The patterns are those of `offset.py`; a class of characters is
its ASCII part.

Lines are lists of characters, without the newline at their end. The lines of the program under simulation
stand in the same log.
-/

namespace PromotionCache.Scripts
open Lib Pcc

/-- The lines of an output; `ostream` is how a double is printed. -/
def printed (ostream : Float → List Char) : Output → List (List Char)
  | .initializing thread =>
    ["Initializing caches for thread ".toList ++ Nat.toDigits 10 thread]
  | .regions count none => [[], Nat.toDigits 10 count ++ (": Memory Regions".toList ++ ":".toList)]
  | .regions count (some thread) =>
    [[], Nat.toDigits 10 count ++ (": Memory Regions".toList ++ (" (Cache #".toList ++
      (Nat.toDigits 10 thread ++ (")".toList ++ ":".toList))))]
  | .candidate base reuseDist freq cacheFreq demotion =>
    ["\tbase = ".toList ++ (Nat.toDigits 16 base ++ (", ".toList ++ (ostream reuseDist ++
      (", ".toList ++ (Nat.toDigits 10 freq ++ (", ".toList ++ (Nat.toDigits 10 cacheFreq ++
        if demotion then "--> DEMOTION".toList else [])))))))]

/-- `\d+\.*\d*(?:e\+\d+)?` -/
def number (cs : List Char) : Option (List Char) := do
  let (_, cs) ← plus Char.isDigit cs
  let cs := (cs.dropWhile (· = '.')).dropWhile Char.isDigit
  some (opt (fun cs => do
    let cs ← lit "e+".toList cs
    let (_, cs) ← plus Char.isDigit cs
    some cs) cs)

/-- `cache_match_str`, with its groups 1, 3 and 4 -/
def cacheMatch (cs : List Char) : Option (List Char × List Char × Option (List Char)) := do
  let cs ← lit "\tbase = ".toList cs
  let (base, cs) ← plus isWord cs
  let cs ← lit ", ".toList cs
  let cs ← number cs
  let cs ← lit ", ".toList cs
  let (freq, cs) ← plus Char.isDigit cs
  let cacheFreq := do
    let cs ← lit ", ".toList cs
    let (cacheFreq, _) ← plus Char.isDigit cs
    some cacheFreq
  some (base, freq, cacheFreq)

/-- `hawkeye_match_str`, with its groups 1 and 3 -/
def hawkeyeMatch (cs : List Char) : Option (List Char × List Char) := do
  let cs ← lit "\tbase = ".toList cs
  let (base, cs) ← plus isWord cs
  let cs ← lit ", ".toList cs
  let cs ← number cs
  let cs ← lit ", bucket = ".toList cs
  let (bucket, _) ← plus Char.isDigit cs
  some (base, bucket)

/-- The pattern of the headers, with its group 1 -/
def timeMatch (cs : List Char) : Option (List Char) := do
  let (time, cs) ← plus Char.isDigit cs
  let cs ← lit ": Memory Regions".toList cs
  let cs := opt (fun cs => do
    let cs ← lit " (Cache #".toList cs
    let (_, cs) ← plus Char.isDigit cs
    lit ")".toList cs) cs
  let _ ← lit ":".toList cs
  some time

/-- The pattern of the line with the extent of the node array. -/
def memRegionMatch (cs : List Char) : Bool :=
  match lit "NODE_ARRAY: starting base = ".toList cs with
  | some rest => decide (", ending base = ".toList <:+: rest)
  | none => false

/-- `mode` -/
inductive Mode where
  | cache
  | other

/-- The values of a line that matches `match_str`; a line of the other mode has no frequency. -/
structure Fields where
  addr : Nat
  cacheFreq : Option Nat

/-- What a line is to `match_str`: nothing, or a candidate, with no values if their conversion raises an
    exception. -/
def matchLine : Mode → List Char → Option (Option Fields)
  | .cache, line => (cacheMatch line).map fun (base, freq, cacheFreq) => do
    let addr ← parseNat 16 base
    let _ ← parseNat 10 freq
    let cacheFreq ← cacheFreq.bind (parseNat 10)
    some ⟨addr, some cacheFreq⟩
  | .other, line => (hawkeyeMatch line).map fun (base, bucket) => do
    let addr ← parseNat 16 base
    let _ ← parseNat 10 bucket
    some ⟨addr, none⟩

/-- `vp` -/
def vp : List String := ["bfs", "sssp", "pagerank"]

/-- The variables of `process_file` that last from line to line. -/
structure Reader (α : Type) where
  reading : Bool
  time : Option Nat
  candidates : AList fun _ : Nat => List α

/-- `candidates[time].append(x)` -/
def Reader.append {α : Type} (r : Reader α) (time : Nat) (x : α) : Reader α :=
  { r with candidates := r.candidates.insert time ((r.candidates.lookup time).getD [] ++ [x]) }

/-- The script starts to read at this line. -/
def starts (app : String) (line : List Char) : Bool :=
  memRegionMatch line || app = "sssp" || app ∉ vp

/-- The loop of `process_file`; `select` is what a script keeps of a candidate, if it does. -/
def processLine {α : Type} (mode : Mode) (select : Fields → Option α) (app : String) (r : Reader α)
    (line : List Char) : Option (Reader α) := do
  let r := { r with reading := r.reading || starts app line }
  let r ← (match timeMatch line with
    | some time => do
      let time ← parseNat 10 time
      some { r with time := some time }
    | none => some r)
  match matchLine mode line with
  | none => some r
  | some fields =>
    if !r.reading then some r
    else do
      match select (← fields) with
      | none => some r
      | some x => do
        let time ← r.time
        some (r.append time x)

/-- `candidates` at the end of the file. -/
def readFile {α : Type} (mode : Mode) (select : Fields → Option α) (app : String)
    (lines : List (List Char)) : Option (AList fun _ : Nat => List α) := do
  let r ← run (processLine mode select app) ⟨false, none, ∅⟩ lines
  some r.candidates

/-- `sorted(candidates.keys())` -/
def sortedKeys {α : Type} (candidates : AList fun _ : Nat => List α) : List Nat :=
  candidates.keys.mergeSort (· ≤ ·)

end PromotionCache.Scripts
