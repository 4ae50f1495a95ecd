import PromotionCache.Scripts.Log
import PromotionCache.Pcc.PassEffect
import Mathlib.Data.List.Sort

/-!
# What the scripts read in a log of the simulator

A script finds in the log the passes of the run, each with its access count and its candidates
(`readFile_spec`): the patterns match the headers and the candidates as they are printed, and nothing of
what else the simulator prints.
-/

namespace PromotionCache.Scripts
open Lib Pcc

/-- A decimal number as `cout` prints those that are at least one, or zero. -/
def Decimal (cs : List Char) : Prop :=
  ∃ int frac exp, cs = int ++ (frac ++ exp) ∧ int ≠ [] ∧ (∀ c ∈ int, c.isDigit = true) ∧
    (frac = [] ∨ ∃ ds, frac = '.' :: ds ∧ ∀ c ∈ ds, c.isDigit = true) ∧
    (exp = [] ∨ ∃ ds, exp = 'e' :: '+' :: ds ∧ ds ≠ [] ∧ ∀ c ∈ ds, c.isDigit = true)

/-- The reuse distances of the candidates are printed as decimal numbers. -/
def Printable (ostream : Float → List Char) (outputs : List Output) : Prop :=
  ∀ base dist freq cacheFreq demotion,
    .candidate base dist freq cacheFreq demotion ∈ outputs → Decimal (ostream dist)

/-- The lines that one of the patterns for headers and candidates matches. -/
def loud (mode : Mode) (line : List Char) : Bool :=
  (timeMatch line).isSome || (matchLine mode line).isSome

/-- A log of a run: its lines of interest are those of the simulator, and the script reads by the time it gets
    to the first of them. -/
structure Logged (ostream : Float → List Char) (app : String) (outputs : List Output)
    (lines : List (List Char)) : Prop where
  same : lines.filter (loud .cache) = (outputs.flatMap (printed ostream)).filter (loud .cache)
  reads : ∀ pre line, pre ++ [line] <+: lines → loud .cache line = true →
    ∃ l ∈ pre ++ [line], starts app l = true

/-- What has been collected under a time. -/
def Reader.entries {α : Type} (r : Reader α) (time : Nat) : List α :=
  (r.candidates.lookup time).getD []

section
variable {cs rest line : List Char} {mode : Mode} {app : String} {ostream : Float → List Char}

/-- A printed number has digits alone. -/
lemma isDigit_of_mem {n : Nat} {c : Char} (h : c ∈ Nat.toDigits 10 n) : c.isDigit = true :=
  Nat.isDigit_of_mem_toDigits (by omega) (by omega) h

/-- The pattern of a number takes the digits and the point, and then looks for an exponent. -/
lemma number_digits {int frac tail : List Char} (ne : int ≠ []) (digits : ∀ c ∈ int, c.isDigit = true)
    (hfrac : frac = [] ∨ ∃ ds, frac = '.' :: ds ∧ ∀ c ∈ ds, c.isDigit = true)
    (point : Stops (· = '.') tail) (digit : Stops Char.isDigit tail) :
    number (int ++ (frac ++ tail)) = some (opt (fun cs => do
      let cs ← lit "e+".toList cs
      let (_, cs) ← plus Char.isDigit cs
      some cs) tail) := by
  have after : ((frac ++ tail).dropWhile (· = '.')).dropWhile Char.isDigit = tail := by
    cases hfrac with
    | inl none => rw [none, List.nil_append, point.dropWhile, digit.dropWhile]
    | inr some =>
      obtain ⟨ds, rfl, all⟩ := some
      rw [List.cons_append, List.dropWhile_cons_of_pos (by rfl)]
      cases ds with
      | nil => rw [List.nil_append, point.dropWhile, digit.dropWhile]
      | cons d ds =>
        have d_digit := all d List.mem_cons_self
        have d_point : decide (d = '.') = false := by
          apply decide_eq_false
          rintro rfl
          cases d_digit
        rw [List.cons_append, (Stops.cons d_point).dropWhile, ← List.cons_append, dropWhile_run all digit]
  have stops : Stops Char.isDigit (frac ++ tail) := by
    cases hfrac with
    | inl none =>
      rw [none, List.nil_append]
      exact digit
    | inr some =>
      obtain ⟨ds, rfl, _⟩ := some
      exact Stops.cons rfl
  rw [number, plus_run digits ne stops]
  simp only [Option.bind_eq_bind, Option.bind_some, after]

/-- It takes a number that is followed by a comma up to the comma. -/
lemma number_run (dec : Decimal cs) : number (cs ++ ',' :: rest) = some (',' :: rest) := by
  obtain ⟨int, frac, exp, rfl, ne, digits, hfrac, hexp⟩ := dec
  have e : int ++ (frac ++ exp) ++ ',' :: rest = int ++ (frac ++ (exp ++ ',' :: rest)) := by
    simp only [List.append_assoc]
  rw [e]
  cases hexp with
  | inl none =>
    rw [none, List.nil_append, number_digits ne digits hfrac (Stops.cons rfl) (Stops.cons rfl), opt,
      lit_eq_none (by simp) (by simp)]
    rfl
  | inr some =>
    obtain ⟨ds, rfl, ne', all⟩ := some
    have split : 'e' :: '+' :: ds ++ ',' :: rest = "e+".toList ++ (ds ++ ',' :: rest) := rfl
    have point : Stops (· = '.') ("e+".toList ++ (ds ++ ',' :: rest)) := Stops.cons rfl
    have digit : Stops Char.isDigit ("e+".toList ++ (ds ++ ',' :: rest)) := Stops.cons rfl
    rw [split, number_digits ne digits hfrac point digit, opt, lit_append, Option.bind_eq_bind,
      Option.bind_some, plus_run all ne' (Stops.cons rfl)]
    rfl

/-- The groups of a candidate. -/
lemma cacheMatch_printed (base freq cacheFreq : Nat) {dist : List Char} (dec : Decimal dist)
    (tail : List Char) (stops : Stops Char.isDigit tail) :
    cacheMatch ("\tbase = ".toList ++ (Nat.toDigits 16 base ++ (", ".toList ++ (dist ++
      (", ".toList ++ (Nat.toDigits 10 freq ++ (", ".toList ++ (Nat.toDigits 10 cacheFreq ++
        tail)))))))) =
      some (Nat.toDigits 16 base, Nat.toDigits 10 freq, some (Nat.toDigits 10 cacheFreq)) := by
  have comma : ∀ xs, ", ".toList ++ xs = ',' :: (' ' :: xs) := fun _ => rfl
  have word : ∀ c ∈ Nat.toDigits 16 base, isWord c = true :=
    fun c mem => isWord_of_mem_toDigits (by omega) (by omega) mem
  have digits : ∀ n, ∀ c ∈ Nat.toDigits 10 n, c.isDigit = true := fun n c mem => isDigit_of_mem mem
  rw [cacheMatch, lit_append, Option.bind_eq_bind, Option.bind_some,
    plus_run word Nat.toDigits_ne_nil (by rw [comma]; exact Stops.cons rfl)]
  simp only [Option.bind_eq_bind, Option.bind_some, lit_append]
  rw [comma (Nat.toDigits 10 freq ++ _), number_run dec, Option.bind_some, ← comma, lit_append,
    Option.bind_some,
    plus_run (digits freq) Nat.toDigits_ne_nil (by rw [comma]; exact Stops.cons rfl)]
  simp only [Option.bind_some, lit_append]
  rw [plus_run (digits cacheFreq) Nat.toDigits_ne_nil stops]
  rfl

/-- The number of a header. -/
lemma timeMatch_printed (count : Nat) :
    timeMatch (Nat.toDigits 10 count ++ (": Memory Regions".toList ++ ":".toList)) =
      some (Nat.toDigits 10 count) := by
  have digits : ∀ c ∈ Nat.toDigits 10 count, c.isDigit = true := fun c mem => isDigit_of_mem mem
  have colon : lit " (Cache #".toList ":".toList = none := rfl
  have stops : Stops Char.isDigit (": Memory Regions".toList ++ ":".toList) := Stops.cons rfl
  rw [timeMatch, plus_run digits Nat.toDigits_ne_nil stops]
  simp only [Option.bind_eq_bind, Option.bind_some, lit_append]
  rw [opt, colon, Option.bind_none, Option.getD_none]
  rfl

/-- What does not begin with the text of a candidate is none. -/
lemma matchLine_eq_none (h : line.head? ≠ some '\t') : matchLine mode line = none := by
  have no : lit "\tbase = ".toList line = none := lit_eq_none h (by simp)
  cases mode with
  | cache =>
    rw [matchLine, cacheMatch, no]
    rfl
  | other =>
    rw [matchLine, hawkeyeMatch, no]
    rfl

/-- A candidate is no header. -/
lemma timeMatch_base (tail : List Char) : timeMatch ("\tbase = ".toList ++ tail) = none := by
  have tab : Stops Char.isDigit ("\tbase = ".toList ++ tail) := Stops.cons rfl
  rw [timeMatch, plus_eq_none tab]
  rfl

/-- The header of a pass is no candidate. -/
lemma matchLine_header (mode : Mode) (n : Nat) (tail : List Char) :
    matchLine mode (Nat.toDigits 10 n ++ tail) = none := by
  apply matchLine_eq_none
  cases e : Nat.toDigits 10 n with
  | nil => exact absurd e Nat.toDigits_ne_nil
  | cons c cs =>
    have digit : c.isDigit = true := isDigit_of_mem (n := n) (by rw [e]; exact List.mem_cons_self)
    rintro h
    obtain rfl := Option.some.inj h
    cases digit

section
variable {α : Type} {select : Fields → Option α} {r r' : Reader α}

/-- The script does not look at its own flag if it starts at this line. -/
lemma processLine_reading (h : (r.reading || starts app line) = true) :
    processLine mode select app r line = processLine mode select app { r with reading := true } line := by
  simp only [processLine, h, Bool.true_or]

/-- A line without a candidate or a count starts the reading at most. -/
lemma processLine_quiet (quiet : loud mode line = false) :
    processLine mode select app r line = some { r with reading := r.reading || starts app line } := by
  obtain ⟨noTime, noMatch⟩ := Bool.or_eq_false_iff.mp quiet
  have noTime := Option.isSome_eq_false_iff.mp noTime
  have noMatch := Option.isSome_eq_false_iff.mp noMatch
  rw [Option.isNone_iff_eq_none] at noTime noMatch
  simp only [processLine, noTime, noMatch, Option.bind_eq_bind, Option.bind_some]

/-- The flag stays set. -/
lemma processLine_keeps (reading : r.reading = true)
    (h : processLine mode select app r line = some r') : r'.reading = true := by
  simp only [processLine, reading, Bool.true_or, Option.bind_eq_bind, Option.bind_eq_some_iff] at h
  obtain ⟨r₁, h₁, h⟩ := h
  have kept : r₁.reading = true := by
    split at h₁
    · obtain ⟨_, _, h₁⟩ := Option.bind_eq_some_iff.mp h₁
      obtain rfl := Option.some.inj h₁
      rfl
    · obtain rfl := Option.some.inj h₁
      rfl
  split at h
  · obtain rfl := Option.some.inj h
    exact kept
  · rw [if_neg (by rw [kept]; exact Bool.false_ne_true)] at h
    obtain ⟨fields, _, h⟩ := Option.bind_eq_some_iff.mp h
    split at h
    · obtain rfl := Option.some.inj h
      exact kept
    · obtain ⟨time, _, h⟩ := Option.bind_eq_some_iff.mp h
      obtain rfl := Option.some.inj h
      exact kept

/-- A script gets the same candidates from the lines of interest alone. -/
lemma run_loud {lines : List (List Char)}
    (reads : r.reading = true ∨ ∀ pre line, pre ++ [line] <+: lines → loud mode line = true →
      ∃ l ∈ pre ++ [line], starts app l = true) :
    (run (processLine mode select app) r lines).map Reader.candidates =
      (run (processLine mode select app) { r with reading := true } (lines.filter (loud mode))).map
        Reader.candidates := by
  induction lines generalizing r with
  | nil => rfl
  | cons l lines ih =>
    cases noise : loud mode l with
    | false =>
      rw [List.filter_cons_of_neg (by rw [noise]; exact Bool.false_ne_true), run_cons,
        processLine_quiet noise, Option.bind_some]
      apply ih
      cases reads with
      | inl reading =>
        rw [reading]
        exact .inl rfl
      | inr later =>
        cases started : starts app l with
        | true => exact .inl (Bool.or_true _)
        | false =>
          refine .inr fun pre line hpre hline => ?_
          obtain ⟨x, mem, hx⟩ := later (l :: pre) line (List.prefix_cons_inj l |>.mpr hpre) hline
          cases List.mem_cons.mp mem with
          | inl first =>
            rw [first, started] at hx
            cases hx
          | inr mem => exact ⟨x, mem, hx⟩
    | true =>
      have eff : (r.reading || starts app l) = true := by
        cases reads with
        | inl reading =>
          rw [reading]
          rfl
        | inr later =>
          obtain ⟨x, mem, hx⟩ := later [] l ⟨lines, rfl⟩ noise
          obtain rfl := List.mem_singleton.mp mem
          rw [hx]
          exact Bool.or_true _
      rw [List.filter_cons_of_pos noise, run_cons, run_cons, processLine_reading eff]
      cases st : processLine mode select app { r with reading := true } l with
      | none => rfl
      | some r' =>
        have kept := processLine_keeps rfl st
        have same : { r' with reading := true } = r' := by
          cases r'
          cases kept
          rfl
        rw [Option.bind_some, Option.bind_some, ih (.inl kept), same]

/-- A log with the same lines of interest as a text is read as that text. -/
lemma readFile_text {text lines : List (List Char)} (same : lines.filter (loud mode) = text.filter (loud mode))
    (reads : ∀ pre line, pre ++ [line] <+: lines → loud mode line = true → ∃ l ∈ pre ++ [line], starts app l = true) :
    readFile mode select app lines =
      (run (processLine mode select app) ⟨true, none, ∅⟩ text).map Reader.candidates := by
  have file : readFile mode select app lines =
      (run (processLine mode select app) ⟨false, none, ∅⟩ lines).map Reader.candidates := by
    rw [readFile]
    cases run (processLine mode select app) ⟨false, none, ∅⟩ lines <;> rfl
  rw [file, run_loud (.inr reads), same]
  exact (run_loud (r := ⟨true, none, ∅⟩) (.inl rfl)).symm

/-- Reading a log of a run is reading what the simulator prints. -/
lemma readFile_eq {outputs : List Output} {lines : List (List Char)}
    (logged : Logged ostream app outputs lines) : readFile .cache select app lines =
      (run (processLine .cache select app) ⟨true, none, ∅⟩ (outputs.flatMap (printed ostream))).map
        Reader.candidates :=
  readFile_text logged.same logged.reads

/-- What `cout` prints is a log of its own. -/
lemma logged_printed (ostream : Float → List Char) (outputs : List Output) :
    Logged ostream "sssp" outputs (outputs.flatMap (printed ostream)) where
  same := rfl
  reads _ line _ _ := by
    refine ⟨line, List.mem_append_right _ (List.mem_singleton.mpr rfl), ?_⟩
    rw [starts, Bool.or_assoc]
    exact Bool.or_eq_true_iff.mpr (.inr rfl)

/-- The entries of a time after one more. -/
@[simp] lemma entries_append (time t : Nat) (x : α) : (r.append time x).entries t =
    if t = time then r.entries time ++ [x] else r.entries t := by
  unfold Reader.entries Reader.append
  split
  case isTrue same =>
    rw [same, AList.lookup_insert]
    rfl
  case isFalse other => rw [AList.lookup_insert_ne other]

/-- A header sets the time. -/
lemma run_headerLines (reading : r.reading = true) (count : Nat) :
    run (processLine mode select app) r
        [[], Nat.toDigits 10 count ++ (": Memory Regions".toList ++ ":".toList)] =
      some { r with time := some count } := by
  have start : loud mode ([] : List Char) = false := by
    cases mode <;> rfl
  have none := matchLine_header mode count (": Memory Regions".toList ++ ":".toList)
  rw [run_cons, processLine_quiet start, Option.bind_some, run_cons]
  simp only [processLine, timeMatch_printed, none, reading, Bool.true_or,
    parseNat_toDigits (b := 10) (by omega) (by omega), Option.bind_eq_bind, Option.bind_some]
  rw [run_nil]

/-- The header of a pass sets its time. -/
lemma run_header (reading : r.reading = true) (count : Nat) :
    run (processLine mode select app) r (printed ostream (.regions count none)) =
      some { r with time := some count } :=
  run_headerLines reading count

/-- A candidate is collected under the time if the script wants it. -/
lemma run_candidate {time base freq cacheFreq : Nat} {dist : Float} {demotion : Bool}
    (reading : r.reading = true) (now : r.time = some time) (dec : Decimal (ostream dist)) :
    run (processLine .cache select app) r
        (printed ostream (.candidate base dist freq cacheFreq demotion)) =
      some (match select ⟨base, some cacheFreq⟩ with
        | some x => r.append time x
        | none => r) := by
  have stops : Stops Char.isDigit (if demotion then "--> DEMOTION".toList else []) := by
    cases demotion with
    | false => exact Stops.nil
    | true => exact Stops.cons rfl
  have groups := cacheMatch_printed base freq cacheFreq dec _ stops
  have same : { r with reading := true } = r := by
    cases r
    cases reading
    rfl
  rw [printed, run_cons]
  simp only [processLine, timeMatch_base, matchLine, groups, reading, Bool.true_or, Option.map_some,
    parseNat_toDigits (b := 10) (by omega) (by omega),
    parseNat_toDigits (b := 16) (by omega) (by omega), Option.bind_eq_bind, Option.bind_some, same]
  cases select ⟨base, some cacheFreq⟩ with
  | none => rfl
  | some x =>
    simp only [now]
    rfl

/-- The candidates of a pass are collected under its time, in their order. -/
lemma run_candidates (select : Fields → Option α) (app : String) {time : Nat} {lines : List Output}
    {listed : List (Nat × Nat × Bool)}
    (e : lines.map Single.entry = listed.map some) (printable : Printable ostream lines)
    (reading : r.reading = true) (now : r.time = some time) :
    ∃ r', run (processLine .cache select app) r (lines.flatMap (printed ostream)) = some r' ∧
      r'.reading = true ∧ ∀ t, r'.entries t = r.entries t ++
        if t = time then listed.filterMap fun l => select ⟨l.1, some l.2.1⟩ else [] := by
  induction lines generalizing r listed with
  | nil =>
    obtain rfl := List.map_eq_nil_iff.mp e.symm
    exact ⟨r, rfl, reading, fun t => by simp⟩
  | cons line lines ih =>
    obtain ⟨l, listed, rfl, hline, hlines⟩ := List.map_eq_cons_iff.mp e.symm
    cases line with
    | initializing => cases hline
    | regions => cases hline
    | candidate base dist freq cacheFreq demotion =>
      obtain rfl := Option.some.inj hline
      have dec := printable _ _ _ _ _ List.mem_cons_self
      have rest : Printable ostream lines := fun _ _ _ _ _ mem =>
        printable _ _ _ _ _ (List.mem_cons_of_mem _ mem)
      rw [List.flatMap_cons, run_append, run_candidate reading now dec, Option.bind_some,
        List.filterMap_cons]
      cases select ⟨base, some cacheFreq⟩ with
      | none => exact ih hlines.symm rest reading now
      | some x =>
        obtain ⟨r', hr', reading', entries⟩ := ih (r := r.append time x) hlines.symm rest reading now
        refine ⟨r', hr', reading', ?_⟩
        intro t
        rw [entries, entries_append]
        split
        case isTrue same =>
          rw [same, List.append_assoc]
          rfl
        case isFalse => rfl

/-- What a script keeps of the candidates of a pass. -/
def kept (select : Fields → Option α) (p : Single.Pass) : List α :=
  p.bases.filterMap fun base => select ⟨base, some ((p.state.freq base).getD 0)⟩

/-- The passes one after the other. -/
lemma run_passes (select : Fields → Option α) (app : String) {passes : List Single.Pass}
    (listed : ∀ p ∈ passes, p.lines.map Single.entry =
      p.bases.map fun base => some (Single.listing p.state base))
    (printable : ∀ p ∈ passes, Printable ostream p.lines) (reading : r.reading = true) :
    ∃ r', run (processLine .cache select app) r
        ((passes.flatMap Single.Pass.output).flatMap (printed ostream)) = some r' ∧
      ∀ t, r'.entries t =
        r.entries t ++ (passes.filter fun p => word p.access = t).flatMap (kept select) := by
  induction passes generalizing r with
  | nil => exact ⟨r, rfl, fun t => by simp⟩
  | cons p passes ih =>
    obtain ⟨first, listed⟩ := List.forall_mem_cons.mp listed
    obtain ⟨first', printable⟩ := List.forall_mem_cons.mp printable
    have e : p.lines.map Single.entry = (p.bases.map (Single.listing p.state)).map some := by
      rw [first, List.map_map]
      rfl
    obtain ⟨r₁, h₁, reading₁, entries₁⟩ := run_candidates select app
      (r := { r with time := some (word p.access) }) e first' reading rfl
    obtain ⟨r', hr', entries'⟩ := ih (r := r₁) listed printable reading₁
    refine ⟨r', ?_, ?_⟩
    · rw [List.flatMap_cons, List.flatMap_append, run_append, Single.Pass.output, List.flatMap_cons,
        run_append, run_header reading, Option.bind_some, h₁, Option.bind_some]
      exact hr'
    · intro t
      rw [entries', entries₁, List.filter_cons, List.append_assoc]
      congr 1
      by_cases same : word p.access = t
      · rw [if_pos same.symm, if_pos (decide_eq_true same), List.flatMap_cons, kept, List.filterMap_map]
        rfl
      · rw [if_neg fun h => same h.symm, if_neg (by simpa using same), List.nil_append]

/-- Keys come in their order, each once. -/
lemma mergeSort_keys_lt {β : Nat → Type} (c : AList β) : (c.keys.mergeSort (· ≤ ·)).Pairwise (· < ·) := by
  have le := List.pairwise_mergeSort' (· ≤ ·) c.keys
  have ne : (c.keys.mergeSort (· ≤ ·)).Nodup := (List.mergeSort_perm _ _).nodup_iff.mpr c.keys_nodup
  exact (le.and ne).imp fun h => Nat.lt_of_le_of_ne h.1 h.2

/-- The times go up. -/
lemma sortedKeys_lt (c : AList fun _ : Nat => List α) : (sortedKeys c).Pairwise (· < ·) := mergeSort_keys_lt c

/-- A time with an entry is one of them. -/
lemma mem_sortedKeys {c : AList fun _ : Nat => List α} {time : Nat} {x : α}
    (h : x ∈ (c.lookup time).getD []) : time ∈ sortedKeys c := by
  refine (List.mergeSort_perm _ _).mem_iff.mpr (AList.lookup_isSome.mp ?_)
  cases e : c.lookup time with
  | none =>
    rw [e] at h
    cases h
  | some _ => rfl

/-- A script finds the passes of a run, each under its access count. -/
theorem readFile_spec (select : Fields → Option α) {cfg : Config} {as : List UInt64} {s : Sim}
    {lines : List (List Char)} {passes : List Single.Pass} (valid : ∀ p ∈ passes, p.Of cfg as)
    (cout : s.cout = passes.flatMap Single.Pass.output) (printable : Printable ostream s.cout)
    (logged : Logged ostream app s.cout lines) :
    ∃ c, readFile .cache select app lines = some c ∧
      ∀ t, (c.lookup t).getD [] =
        (passes.filter fun p => word p.access = t).flatMap (kept select) := by
  have listed : ∀ p ∈ passes, Printable ostream p.lines := by
    intro p mem base dist freq cacheFreq demotion hline
    apply printable base dist freq cacheFreq demotion
    rw [cout, List.mem_flatMap]
    exact ⟨p, mem, List.mem_cons_of_mem _ hline⟩
  obtain ⟨r, hr, entries⟩ := run_passes select app (r := ⟨true, none, ∅⟩)
    (fun p mem => (valid p mem).lines) listed rfl
  refine ⟨r.candidates, ?_, ?_⟩
  · rw [readFile_eq logged, cout, hr]
    rfl
  · intro t
    exact entries t

end

end

/-- Region 0 is promoted, loses its translation to other pages and regions, and is used again; region 2 is used
    before and after that. -/
def refill : List UInt64 :=
  let pageOf := Single.pageOf
  [pageOf 0 17, pageOf 0 33, pageOf 0 49, pageOf 0 0, pageOf 20 0, pageOf 21 0, pageOf 2 2, pageOf 2 3, pageOf 0 18,
    pageOf 24 0, pageOf 25 0, pageOf 26 0, pageOf 27 0, pageOf 28 0, pageOf 29 0, pageOf 12288 5, pageOf 12800 5,
    pageOf 13312 5, pageOf 13824 5, pageOf 0 19, pageOf 2 4, pageOf 2 4, pageOf 2 4, pageOf 2 4]

/-- Its passes come with the accesses 8 and 24. The first lists region 0, the second region 0, which is promoted then,
    and region 2. -/
lemma refill_lists : ∃ s m₁ m₂, Single.simulate ⟨4, 3, 8, 0.9⟩ refill = some s ∧
    (∀ k m base, Single.Lists ⟨4, 3, 8, 0.9⟩ refill k m base ↔
      (k = 8 ∧ m = m₁ ∧ base = 0) ∨ (k = 24 ∧ m = m₂ ∧ (base = 0 ∨ base = 2))) ∧
    Single.listing m₁ 0 = (0, 2, false) ∧ Single.listing m₂ 0 = (0, 1, true) ∧
      Single.listing m₂ 2 = (2, 1, false) := by
  have first : (Single.simulate ⟨4, 3, 8, 0.9⟩ (refill.take 7)).map (fun s =>
      (s.promotionCache.getEntries, Single.listing (Single.counted s) 0)) =
      some (some [0], (0, 2, false)) := by decide +kernel
  have second : (Single.simulate ⟨4, 3, 8, 0.9⟩ (refill.take 23)).map (fun s =>
      (s.promotionCache.sets.length, s.promotionCache.getEntries, [0, 2].map (Single.listing (Single.counted s)))) =
      some (1, some [0, 2], [(0, 1, true), (2, 1, false)]) := by decide +kernel
  obtain ⟨s₁, h₁, e⟩ := Option.map_eq_some_iff.mp first
  obtain ⟨entries₁, listed₁⟩ := Prod.mk.inj e
  obtain ⟨s₂, h₂, e⟩ := Option.map_eq_some_iff.mp second
  obtain ⟨one, e⟩ := Prod.mk.inj e
  obtain ⟨entries₂, e⟩ := Prod.mk.inj e
  obtain ⟨listed₂, e⟩ := List.cons.inj e
  obtain ⟨listed₃, _⟩ := List.cons.inj e
  obtain ⟨_, val₁⟩ := Single.simulate_valid (by decide) h₁
  obtain ⟨g, val₂⟩ := Single.simulate_valid (by decide) h₂
  have held₁ := (val₁.entries entries₁).2
  have held₂ := (val₂.entries entries₂).2
  have sets : 1 ≤ g.sets := by
    rw [← val₂.promotionCache.geometry]
    exact one.ge
  have period : Config.period ⟨4, 3, 8, 0.9⟩ = 24 := by decide
  have ne : Config.period ⟨4, 3, 8, 0.9⟩ ≠ 0 := by decide
  obtain ⟨s, st⟩ := Single.pccTrackAccess_some val₂ sets ne (Single.pageOf 2 4)
  have len : refill.length = 24 := rfl
  have pass₁ := Single.passFrom_take (by rw [len]; decide) h₁ (by decide)
  have pass₂ := Single.passFrom_take (by rw [len]; decide) h₂ (by decide)
  have whole : refill.take 23 ++ [Single.pageOf 2 4] = refill := rfl
  have h := Single.simulate_snoc.mpr ⟨s₂, h₂, st⟩
  rw [whole] at h
  refine ⟨s, Single.counted s₁, Single.counted s₂, h, ?_, listed₁, listed₂, listed₃⟩
  intro k m base
  constructor
  · rintro ⟨pass, held⟩
    obtain ⟨pos, le⟩ := pass.le
    have le : k ≤ 24 := le
    have either : k = 8 ∨ k = 24 := by
      have due := Single.passDue_iff.mp pass.due
      rw [word_of_lt (by omega), period] at due
      have eight : (8 : UInt64).toNat = 8 := rfl
      dsimp only at due
      omega
    rcases either with rfl | rfl
    · obtain rfl := pass.unique pass₁
      exact .inl ⟨rfl, rfl, List.mem_singleton.mp ((held₁ base).mpr held)⟩
    · obtain rfl := pass.unique pass₂
      have mem := (held₂ base).mpr held
      simp only [List.mem_cons, List.not_mem_nil, or_false] at mem
      exact .inr ⟨rfl, rfl, mem⟩
  · rintro (⟨rfl, rfl, rfl⟩ | ⟨rfl, rfl, hbase⟩)
    · exact ⟨pass₁, (held₁ 0).mp (List.mem_singleton_self 0)⟩
    · refine ⟨pass₂, (held₂ base).mp ?_⟩
      simp only [List.mem_cons, List.not_mem_nil, or_false]
      exact hbase

/-- A frequency that a pass shows above zero is one. -/
lemma freq_ne_zero {m : Sim} {base f : Nat} {demotion : Bool} (listed : Single.listing m base = (base, f, demotion))
    (pos : 0 < f) : m.freq base ≠ some 0 := by
  intro zero
  simp only [Single.listing, zero, Option.getD_some, Prod.mk.injEq, true_and] at listed
  omega

/-- How the stream prints the reuse distances in this run. -/
def distance (dist : Float) : List Char :=
  if dist == 1 then ['1'] else if dist == 11 then ['1', '1'] else ['1', '3']

/-- Distances are printed as the pattern has them. -/
lemma printable_distance (outputs : List Output) : Printable distance outputs := by
  intro _ dist _ _ _ _
  have digits : ∀ cs : List Char, cs ≠ [] → cs.all Char.isDigit = true → Decimal cs :=
    fun cs ne all => ⟨cs, [], [], by simp, ne, List.all_eq_true.mp all, .inl rfl, .inl rfl⟩
  unfold distance
  split
  · exact digits _ (by simp) rfl
  · split
    · exact digits _ (by simp) rfl
    · exact digits _ (by simp) rfl

end PromotionCache.Scripts
