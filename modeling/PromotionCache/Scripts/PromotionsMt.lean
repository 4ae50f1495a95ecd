import PromotionCache.Scripts.Log
import PromotionCache.Lib.While

/-!
# Promotions with several threads

`get_promotions_mt.py` reads the log of a simulation with several threads. The candidates of a pass stand
under the number of passes that its thread has made before. Within such a time the script goes through the
candidates of all threads by the policy of the constant `POLICY`, in rounds over the threads or by
frequency, until it has promoted as many regions as it may. The policy that is asked for on the command
line is another variable, which becomes part of the name of the file.

An operation returns `none` where the script raises an exception.
-/

namespace PromotionCache.Scripts.Mt
open Lib

/-- What is kept of a candidate. -/
structure Candidate where
  addr : Nat
  cacheFreq : Nat
  deriving DecidableEq

/-- `candidates[time]`: the candidates of every thread. -/
abbrev Queues := AList fun _ : Nat => List Candidate

/-- `candidates` -/
abbrev Candidates := AList fun _ : Nat => Queues

/-- The pattern of the headers, with its group 2 -/
def cacheNumber (cs : List Char) : Option (Option (List Char)) := do
  let (_, cs) ← plus Char.isDigit cs
  let cs ← lit ": Memory Regions".toList cs
  let group := do
    let cs ← lit " (Cache #".toList cs
    let (tid, cs) ← plus Char.isDigit cs
    let cs ← lit ")".toList cs
    some (tid, cs)
  match group with
  | some (tid, cs) => do
    let _ ← lit ":".toList cs
    some (some tid)
  | none => do
    let _ ← lit ":".toList cs
    some none

/-- The variables of `process_file` that last from line to line. -/
structure Reader where
  reading : Bool
  times : AList fun _ : Nat => Nat
  time : Nat
  tid : Option Nat
  candidates : Candidates

/-- The script starts to read at this line. -/
def starts (app : String) (line : List Char) : Bool := memRegionMatch line || app ∉ vp

/-- What the script does at the header of a pass. -/
def Reader.header (r : Reader) (tid : Nat) : Reader :=
  let time := match r.times.lookup tid with
    | none => 0
    | some time => time + 1
  { r with tid := some tid, times := r.times.insert tid time, time }

/-- `candidates[time][tid].append([addr, cache_freq])` -/
def Reader.append (r : Reader) (tid : Nat) (c : Candidate) : Reader :=
  let queues := (r.candidates.lookup r.time).getD ∅
  let queue := (queues.lookup tid).getD []
  { r with candidates := r.candidates.insert r.time (queues.insert tid (queue ++ [c])) }

/-- The loop of `process_file`. A line of the other mode has no group 4. -/
def processLine (mode : Mode) (app : String) (r : Reader) (line : List Char) : Option Reader := do
  let r := { r with reading := r.reading || starts app line }
  let r ← (match cacheNumber line with
    | some tid => do
      let tid ← tid.bind (parseNat 10)
      some (r.header tid)
    | none => some r)
  match matchLine mode line with
  | none => some r
  | some fields =>
    if !r.reading then some r
    else do
      let fields ← fields
      let cacheFreq ← fields.cacheFreq
      let tid ← r.tid
      some (r.append tid ⟨fields.addr, cacheFreq⟩)

/-- `candidates` at the end of the file. -/
def readFile (mode : Mode) (app : String) (lines : List (List Char)) : Option Candidates := do
  let r ← run (processLine mode app) ⟨false, ∅, 0, none, ∅⟩ lines
  some r.candidates

/-- The candidates of a time that are left, and the global variables. -/
structure Selection where
  candidates : Queues
  uniqueCandidates : List Nat
  toPromote : List Nat
  donePromoting : Bool

/-- `promote` -/
def promote (promotionLimit : Int) (s : Selection) (addr : Nat) : Selection :=
  if addr ∈ s.uniqueCandidates then s
  else
    { s with
      uniqueCandidates := s.uniqueCandidates ++ [addr]
      toPromote := s.toPromote ++ [addr]
      donePromoting := s.donePromoting || promotionLimit ≤ (s.uniqueCandidates ++ [addr]).length }

/-- `for tid in tids`, the branch of policy 0. -/
def roundRobin (promotionLimit : Int) (s : Selection) : List Nat → Selection
  | [] => s
  | tid :: tids =>
    match s.candidates.lookup tid with
    | some (tup :: queue) =>
      let s := promote promotionLimit { s with candidates := s.candidates.insert tid queue } tup.addr
      if s.donePromoting then s else roundRobin promotionLimit s tids
    | some [] => roundRobin promotionLimit { s with candidates := s.candidates.erase tid } tids
    | none => roundRobin promotionLimit s tids

/-- `tups` -/
def tups (s : Selection) (tids : List Nat) : List (Nat × Candidate) :=
  tids.filterMap fun tid =>
    match s.candidates.lookup tid with
    | some (tup :: _) => some (tid, tup)
    | _ => none

/-- The branch of the other policies. -/
def highestFrequency (promotionLimit : Int) (s : Selection) (tids : List Nat) : Option Selection := do
  let (maxTid, _) ← ((tups s tids).mergeSort fun x y => y.2.cacheFreq ≤ x.2.cacheFreq).head?
  match s.candidates.lookup maxTid with
  | some (tup :: queue) =>
    let s := promote promotionLimit { s with candidates := s.candidates.insert maxTid queue } tup.addr
    if s.donePromoting then some s
    else if queue.isEmpty then some { s with candidates := s.candidates.erase maxTid }
    else some s
  | _ => none

/-- `not done_promoting and len(candidates[time]) > 0` -/
def selecting (s : Selection) : Bool := !s.donePromoting && 0 < s.candidates.keys.length

/-- The body of the `while`. -/
def selectStep (POLICY : Int) (promotionLimit : Int) (tids : List Nat) (s : Selection) :
    Option Selection :=
  if POLICY = 0 then some (roundRobin promotionLimit s tids)
  else if 0 < s.candidates.keys.length then highestFrequency promotionLimit s tids
  else some s

/-- What is left, counting every list and its end. -/
def left (tids : List Nat) (s : Selection) : Nat :=
  (tids.map fun tid => ((s.candidates.lookup tid).map fun queue => queue.length + 1).getD 0).sum

/-- The `while` loop, for the candidates of one time. -/
def select (POLICY promotionLimit : Int) (candidates : Queues) (uniqueCandidates : List Nat) :
    Option Selection :=
  let tids := candidates.keys.mergeSort (· ≤ ·)
  let s : Selection := ⟨candidates, uniqueCandidates, [], false⟩
  whileLoop selecting (selectStep POLICY promotionLimit tids) (left tids s + 2) s

/-- The loop over the times; the result is what is written into the promotion file. -/
def writeFrom (POLICY promotionLimit offset : Int) (candidates : Candidates)
    (uniqueCandidates : List Nat) : List Nat → Option (List (Nat × Int))
  | [] => some []
  | time :: times => do
    let s ← select POLICY promotionLimit ((candidates.lookup time).getD ∅) uniqueCandidates
    let lines := (s.toPromote.mergeSort (· ≤ ·)).map fun addr : Nat => (time, (addr : Int) + offset)
    if s.donePromoting then some lines
    else do
      let rest ← writeFrom POLICY promotionLimit offset candidates s.uniqueCandidates times
      some (lines ++ rest)

/-- `sorted(candidates.keys())` -/
def times (candidates : Candidates) : List Nat := candidates.keys.mergeSort (· ≤ ·)

/-- `write_promotions` -/
def writePromotions (POLICY promotionLimit offset : Int) (candidates : Candidates) :
    Option (List (Nat × Int)) :=
  writeFrom POLICY promotionLimit offset candidates [] (times candidates)

/-- `POLICY` -/
def POLICY : Int := 0

/-- What the file name and the arguments say; `policy` is the fourth argument, if there is one. -/
structure Invocation where
  mode : Mode
  app : String
  promotionLimit : Int
  offset : Int
  policy : Option Int

/-- `policy` -/
def Invocation.policyOf (inv : Invocation) : Int := inv.policy.getD 0

/-- `__main__`: the policy in the name of the promotion file, and what is written into it. -/
def main (inv : Invocation) (lines : List (List Char)) : Option (Int × List (Nat × Int)) := do
  let candidates ← readFile inv.mode inv.app lines
  let file ← writePromotions POLICY inv.promotionLimit inv.offset candidates
  some (inv.policyOf, file)

end PromotionCache.Scripts.Mt
