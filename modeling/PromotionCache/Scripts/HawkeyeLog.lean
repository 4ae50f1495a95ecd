import PromotionCache.Hawkeye.Output
import PromotionCache.Lib.Ostream
import PromotionCache.Scripts.GetPromotions

/-!
# The log of HawkEye

`get_promotions.py` reads the candidates that `summarize` of `hawkeye.h` prints. The pattern for them knows numbers
with a positive exponent, but not with a negative one.
-/

namespace PromotionCache.Scripts.HawkeyeLog
open Lib Hawkeye
open Tlb (hugePageSize)
open Pcc (Config pageSize)

/-- How an `int` is printed. -/
def int : Int → List Char
  | .ofNat n => Nat.toDigits 10 n
  | .negSucc n => '-' :: Nat.toDigits 10 (n + 1)

/-- The line of a candidate. -/
def candidateLine (base : Nat) (ema : ℚ) (bucket : Int) : List Char :=
  "\tbase = ".toList ++ (Nat.toDigits 16 base ++ (", ".toList ++ (ostream ema ++
    (", bucket = ".toList ++ int bucket))))

/-- The lines of an output. -/
def printed : Line → List (List Char)
  | .regions count => [[], Nat.toDigits 10 count ++ (": Memory Regions".toList ++ ":".toList)]
  | .newBucketNegative => ["NEW BUCKET < 0!".toList]
  | .candidate base ema bucket => [candidateLine base ema bucket]
  | .promotedAllData => ["PROMOTED ALL DATA!".toList]

/-- A log of a run: its lines of interest are those of the simulator, and the script reads by the time it gets to the
    first of them. -/
structure Logged (app : String) (outputs : List Line) (lines : List (List Char)) : Prop where
  same : lines.filter (loud .other) = (outputs.flatMap printed).filter (loud .other)
  reads : ∀ pre line, pre ++ [line] <+: lines → loud .other line = true → ∃ l ∈ pre ++ [line], starts app l = true

/-- The pattern matches every candidate, with its base, and every region that is promoted is read from the log. -/
structure Parsed (app : String) (s : State) (lines : List (List Char)) : Prop where
  matched : ∀ base ema bucket, .candidate base ema bucket ∈ s.cout →
    matchLine .other (candidateLine base ema bucket) = some (some ⟨base, none⟩)
  kept : ∃ c, readFile .other listedAddr app lines = some c ∧
    ∀ base, s.hawkeyePromotions.contains base = true → ∃ time, base ∈ (c.lookup time).getD []

section
variable {base : Nat} {ema : ℚ} {bucket : Int} {app : String}

/-- A number that is printed without a negative exponent. -/
lemma Plain.decimal (nonneg : 0 ≤ ema) (plain : Plain ema) : Decimal (ostream ema) := by
  obtain ⟨int, frac, ne, digits, hfrac, e⟩ := ostream_form ema
  refine ⟨int, frac, _, e, ne, digits, hfrac, ?_⟩
  split
  case isFalse => exact .inl rfl
  case isTrue far =>
    have pos : 0 < ema := lt_of_le_of_ne nonneg far.1.symm
    have small := (significand_plain pos).mpr (plain.resolve_left far.1)
    have large : ¬ (significand ema).2 < 0 := by
      have large := far.2.resolve_left (by omega)
      omega
    refine .inr ⟨_, by rw [exponent, if_neg large], ?_, ?_⟩
    · split
      · exact List.cons_ne_nil _ _
      · exact Nat.toDigits_ne_nil
    · intro c mem
      split at mem
      · cases mem with
        | head => rfl
        | tail _ mem => exact isDigit_of_mem mem
      · exact isDigit_of_mem mem

/-- What is left of a number with a negative exponent begins with the exponent. -/
lemma number_small (nonneg : 0 ≤ ema) (small : ¬ Plain ema) (rest : List Char) :
    ∃ tail, number (ostream ema ++ rest) = some ('e' :: tail) := by
  have ne : ema ≠ 0 := fun e => small (.inl e)
  have pos : 0 < ema := lt_of_le_of_ne nonneg ne.symm
  have neg : (significand ema).2 < -4 := by
    rw [← not_le, significand_plain pos]
    exact fun le => small (.inr le)
  obtain ⟨int, frac, ne', digits, hfrac, e⟩ := ostream_form ema
  rw [if_pos ⟨ne, .inl neg⟩, exponent, if_pos (by omega)] at e
  rw [e, List.append_assoc, List.append_assoc, List.cons_append, List.cons_append]
  rw [number_digits ne' digits hfrac (Stops.cons rfl) (Stops.cons rfl)]
  exact ⟨_, rfl⟩

/-- The pattern comes to the number. -/
lemma hawkeyeMatch_number (num : List Char) : hawkeyeMatch ("\tbase = ".toList ++ (Nat.toDigits 16 base ++
    (", ".toList ++ num))) = (do
      let cs ← number num
      let cs ← lit ", bucket = ".toList cs
      let (bucket, _) ← plus Char.isDigit cs
      some (Nat.toDigits 16 base, bucket)) := by
  have comma : ", ".toList ++ num = ',' :: (' ' :: num) := rfl
  have word : ∀ c ∈ Nat.toDigits 16 base, isWord c = true :=
    fun c mem => isWord_of_mem_toDigits (by omega) (by omega) mem
  rw [hawkeyeMatch, lit_append, Option.bind_eq_bind, Option.bind_some,
    plus_run word Nat.toDigits_ne_nil (by rw [comma]; exact Stops.cons rfl)]
  simp only [Option.bind_eq_bind, Option.bind_some, lit_append]

/-- A line with a decimal number is matched. -/
lemma hawkeyeMatch_decimal {num : List Char} (dec : Decimal num) (n : Nat) :
    hawkeyeMatch ("\tbase = ".toList ++ (Nat.toDigits 16 base ++ (", ".toList ++ (num ++
      (", bucket = ".toList ++ Nat.toDigits 10 n))))) = some (Nat.toDigits 16 base, Nat.toDigits 10 n) := by
  have comma : ∀ xs, ", bucket = ".toList ++ xs = ',' :: (" bucket = ".toList ++ xs) := fun _ => rfl
  have digits : ∀ c ∈ Nat.toDigits 10 n, c.isDigit = true := fun c mem => isDigit_of_mem mem
  have last := @plus_run Char.isDigit (Nat.toDigits 10 n) [] digits Nat.toDigits_ne_nil Stops.nil
  rw [List.append_nil] at last
  rw [hawkeyeMatch_number, comma, number_run dec, ← comma]
  simp only [Option.bind_eq_bind, Option.bind_some, lit_append, last]

/-- A line that is matched gives its region, and no frequency. -/
lemma matchLine_decimal {line : List Char} {n : Nat}
    (groups : hawkeyeMatch line = some (Nat.toDigits 16 base, Nat.toDigits 10 n)) :
    matchLine .other line = some (some ⟨base, none⟩) := by
  rw [matchLine, groups, Option.map_some]
  simp only [parseNat_toDigits (b := 10) (by omega) (by omega),
    parseNat_toDigits (b := 16) (by omega) (by omega), Option.bind_eq_bind, Option.bind_some]

/-- A candidate is matched, with its base, if and only if its average is printed without a negative exponent. -/
lemma matchLine_candidate (nonneg : 0 ≤ ema) (pos : 0 ≤ bucket) :
    matchLine .other (candidateLine base ema bucket) = some (some ⟨base, none⟩) ↔ Plain ema := by
  constructor
  · intro matched
    by_contra small
    obtain ⟨tail, left⟩ := number_small nonneg small (", bucket = ".toList ++ int bucket)
    have none : hawkeyeMatch (candidateLine base ema bucket) = none := by
      refine (hawkeyeMatch_number _).trans ?_
      rw [left]
      simp only [Option.bind_eq_bind, Option.bind_some]
      rw [lit_eq_none (by simp) (by simp), Option.bind_none]
    rw [matchLine, none] at matched
    cases matched
  · intro plain
    obtain ⟨n, rfl⟩ := Int.eq_ofNat_of_zero_le pos
    exact matchLine_decimal (hawkeyeMatch_decimal (Plain.decimal nonneg plain) n)

/-- What stands in a reader that may read candidates. -/
structure Ready (r : Reader Nat) : Prop where
  reading : r.reading = true
  time : r.time.isSome = true

variable (app)

/-- A header makes the reader ready, and changes nothing that has been collected. -/
lemma run_regions {r : Reader Nat} (reading : r.reading = true) (count : Nat) :
    ∃ r', run (processLine .other listedAddr app) r (printed (.regions count)) = some r' ∧ Ready r' ∧
      r'.candidates = r.candidates :=
  ⟨_, run_headerLines reading count, ⟨reading, rfl⟩, rfl⟩

/-- A candidate is collected. -/
lemma run_candidateLine {r : Reader Nat} (ready : Ready r)
    (matched : matchLine .other (candidateLine base ema bucket) = some (some ⟨base, none⟩)) :
    ∃ r', run (processLine .other listedAddr app) r (printed (.candidate base ema bucket)) = some r' ∧
      Ready r' ∧ (∀ t x, x ∈ r.entries t → x ∈ r'.entries t) ∧ ∃ t, base ∈ r'.entries t := by
  obtain ⟨reading, time⟩ := ready
  obtain ⟨time, now⟩ := Option.isSome_iff_exists.mp time
  have quiet : timeMatch (candidateLine base ema bucket) = none := timeMatch_base _
  refine ⟨r.append time base, ?_, ⟨reading, by rw [Reader.append, now]; rfl⟩, ?_, time, ?_⟩
  · obtain ⟨_, _, candidates⟩ := r
    cases reading
    cases now
    rw [printed, run_cons]
    simp only [processLine, quiet, matched, Bool.true_or, listedAddr, Option.bind_eq_bind, Option.bind_some]
    rfl
  · intro t x mem
    rw [entries_append]
    split
    case isTrue same => exact List.mem_append_left _ (same ▸ mem)
    case isFalse => exact mem
  · rw [entries_append, if_pos rfl]
    exact List.mem_append_right _ (List.mem_singleton.mpr rfl)

/-- The other texts are passed over. -/
lemma run_text {r : Reader Nat} {line : List Char} (reading : r.reading = true)
    (noTime : timeMatch line = none) (noMatch : matchLine .other line = none) :
    run (processLine .other listedAddr app) r [line] = some r := by
  have same : { r with reading := true } = r := by
    cases r
    cases reading
    rfl
  have quiet : loud .other line = false := by
    rw [loud, noTime, noMatch]
    rfl
  rw [run_cons, processLine_quiet quiet, reading, Bool.true_or, same]
  rfl

/-- One output. -/
lemma run_output {line : Line} {r : Reader Nat} (ready : Ready r)
    (matched : ∀ base ema bucket, line = .candidate base ema bucket →
      matchLine .other (candidateLine base ema bucket) = some (some ⟨base, none⟩)) :
    ∃ r', run (processLine .other listedAddr app) r (printed line) = some r' ∧ Ready r' ∧
      (∀ t x, x ∈ r.entries t → x ∈ r'.entries t) ∧
      ∀ base ema bucket, line = .candidate base ema bucket → ∃ t, base ∈ r'.entries t := by
  cases line with
  | regions count =>
    obtain ⟨r', hr, ready', same⟩ := run_regions app ready.reading count
    refine ⟨r', hr, ready', ?_, nofun⟩
    intro t x mem
    rw [Reader.entries, same]
    exact mem
  | newBucketNegative => exact ⟨r, run_text app ready.reading rfl rfl, ready, fun _ _ mem => mem, nofun⟩
  | candidate base ema bucket =>
    obtain ⟨r', hr, ready', kept, t, mem⟩ := run_candidateLine app ready (matched _ _ _ rfl)
    refine ⟨r', hr, ready', kept, ?_⟩
    intro base' ema' bucket' e
    obtain ⟨rfl, _, _⟩ := Line.candidate.inj e
    exact ⟨t, mem⟩
  | promotedAllData => exact ⟨r, run_text app ready.reading rfl rfl, ready, fun _ _ mem => mem, nofun⟩

/-- All candidates that are matched are collected. -/
lemma run_outputs {outputs : List Line} {r : Reader Nat} (ready : Ready r)
    (matched : ∀ base ema bucket, .candidate base ema bucket ∈ outputs →
      matchLine .other (candidateLine base ema bucket) = some (some ⟨base, none⟩)) :
    ∃ r', run (processLine .other listedAddr app) r (outputs.flatMap printed) = some r' ∧
      (∀ t x, x ∈ r.entries t → x ∈ r'.entries t) ∧
      ∀ base ema bucket, .candidate base ema bucket ∈ outputs → ∃ t, base ∈ r'.entries t := by
  induction outputs generalizing r with
  | nil => exact ⟨r, rfl, fun _ _ mem => mem, nofun⟩
  | cons line outputs ih =>
    have first : ∀ base ema bucket, line = .candidate base ema bucket →
        matchLine .other (candidateLine base ema bucket) = some (some ⟨base, none⟩) :=
      fun base ema bucket e => matched base ema bucket (e ▸ List.mem_cons_self)
    obtain ⟨r₁, h₁, ready₁, kept₁, new₁⟩ := run_output app ready first
    obtain ⟨r', hr, kept, new⟩ := ih ready₁ fun base ema bucket mem =>
      matched base ema bucket (List.mem_cons_of_mem _ mem)
    refine ⟨r', ?_, fun t x mem => kept t x (kept₁ t x mem), ?_⟩
    · rw [List.flatMap_cons, run_append, h₁, Option.bind_some]
      exact hr
    · intro base ema bucket mem
      cases List.mem_cons.mp mem with
      | inl here =>
        obtain ⟨t, mem⟩ := new₁ base ema bucket here.symm
        exact ⟨t, kept t base mem⟩
      | inr later => exact new base ema bucket later

variable {app}

/-- The lines of a run are a log of their own. -/
lemma logged_printed (outputs : List Line) : Logged "sssp" outputs (outputs.flatMap printed) where
  same := rfl
  reads _ line _ _ := by
    refine ⟨line, List.mem_append_right _ (List.mem_singleton.mpr rfl), ?_⟩
    rw [starts, Bool.or_assoc]
    exact Bool.or_eq_true_iff.mpr (.inr rfl)

/-- The script reads the promotions of a run from its log if and only if every average is printed without a negative
    exponent. -/
theorem parsed_iff {p : Platform} {cfg : Config} {as : List UInt64} {s : State} {lines : List (List Char)}
    (h : simulate p cfg as = some s) (logged : Logged app s.cout lines) :
    Parsed app s lines ↔ ∀ base ema bucket, .candidate base ema bucket ∈ s.cout → Plain ema := by
  obtain ⟨header, candidates, promoted⟩ := simulate_printed h
  constructor
  · intro parsed base ema bucket mem
    obtain ⟨nonneg, pos⟩ := candidates base ema bucket mem
    exact (matchLine_candidate nonneg pos).mp (parsed.matched base ema bucket mem)
  · intro plain
    have matched : ∀ base ema bucket, .candidate base ema bucket ∈ s.cout →
        matchLine .other (candidateLine base ema bucket) = some (some ⟨base, none⟩) := by
      intro base ema bucket mem
      obtain ⟨nonneg, pos⟩ := candidates base ema bucket mem
      exact (matchLine_candidate nonneg pos).mpr (plain base ema bucket mem)
    have text : ∃ r, run (processLine .other listedAddr app) ⟨true, none, ∅⟩ (s.cout.flatMap printed) = some r ∧
        ∀ base ema bucket, .candidate base ema bucket ∈ s.cout → ∃ t, base ∈ r.entries t := by
      cases header with
      | inl none =>
        rw [none]
        exact ⟨_, rfl, nofun⟩
      | inr some =>
        -- the header sets the time for what follows
        obtain ⟨count, rest, e⟩ := some
        rw [e] at matched ⊢
        obtain ⟨r₁, h₁, ready, _⟩ := run_regions app (r := ⟨true, none, ∅⟩) rfl count
        obtain ⟨r, hr, _, new⟩ := run_outputs app ready fun base ema bucket mem =>
          matched base ema bucket (List.mem_cons_of_mem _ mem)
        refine ⟨r, ?_, ?_⟩
        · rw [List.flatMap_cons, run_append, h₁, Option.bind_some]
          exact hr
        · intro base ema bucket mem
          exact new base ema bucket ((List.mem_cons.mp mem).resolve_left nofun)
    obtain ⟨r, hr, found⟩ := text
    refine ⟨matched, r.candidates, ?_, ?_⟩
    · rw [readFile_text logged.same logged.reads, hr]
      rfl
    · intro base known
      obtain ⟨ema, bucket, mem⟩ := promoted base known
      exact found base ema bucket mem

/-- A window over all pages of one region. -/
theorem parsed_iff_sweep : ∃ s, simulate plain ⟨128, 1, 512, 0.9⟩ (sweep 511 512) = some s ∧
    (Parsed "sssp" s (s.cout.flatMap printed) ↔
      ∀ base ema bucket, .candidate base ema bucket ∈ s.cout → Plain ema) := by
  have period : (⟨128, 1, 512, 0.9⟩ : Config).period = 512 := rfl
  have interval : (⟨128, 1, 512, 0.9⟩ : Config).accessInterval.toNat = 512 := rfl
  obtain ⟨s, hs, _⟩ : ∃ s, simulate plain ⟨128, 1, 512, 0.9⟩ (sweep 511 512) = some s ∧ _ :=
    simulate_sweep (by omega) (by omega) (by omega) (by omega) (by omega)
  exact ⟨s, hs, parsed_iff hs (logged_printed s.cout)⟩

/-- Windows of 461 accesses with as many accesses between them. -/
def fading : Config := ⟨128, 1, 461, 0.9⟩

/-- Every window touches 460 pages of region 0, and the last access of the first one a page of region 1. -/
def touched (i : Nat) : Nat := if i = 460 then hugePageSize else pageSize * (i % 922 % 460)

/-- The first `n` accesses. -/
def fade (n : Nat) : List UInt64 := (List.range n).map fun i => UInt64.ofNat (touched i)

/-- What is left of an average of 1 after windows without an access. -/
def leftOver : Nat → ℚ
  | 0 => 1
  | k + 1 => mean plain (leftOver k) 0

/-- The average of region 0 stays at its number of pages, that of region 1 falls. -/
structure Fades (n : Nat) (s : State) : Prop where
  only : ∀ r ∈ s.coverage, r = 0 ∨ r = 1
  fresh : n < 461 → ∀ r, s.ema.find r = none
  faded : ∀ k, 922 * k + 461 ≤ n → n < 922 * (k + 1) + 461 →
    1 ∈ s.coverage ∧ s.ema.find 0 = some 460 ∧ s.ema.find 1 = some (leftOver k)

section
variable {p : Platform} {s m : State} {n k : Nat}

/-- One more access of the run that fades. -/
lemma fade_succ (n : Nat) : fade (n + 1) = fade n ++ [UInt64.ofNat (touched n)] := by
  rw [fade, List.range_succ, List.map_append]
  rfl

/-- The run has as many accesses as it is asked for. -/
lemma length_fade (n : Nat) : (fade n).length = n := by
  rw [fade, List.length_map, List.length_range]

/-- Its addresses do not wrap around. -/
lemma toNat_touched (i : Nat) : (UInt64.ofNat (touched i)).toNat = touched i := by
  apply UInt64.toNat_ofNat_of_lt'
  show touched i < 2 ^ 64
  unfold touched hugePageSize pageSize
  split <;> omega

/-- All accesses but one are to the region 0. -/
lemma region_touched (i : Nat) : (UInt64.ofNat (touched i)).toNat / hugePageSize = if i = 460 then 1 else 0 := by
  rw [toNat_touched]
  unfold touched hugePageSize pageSize
  split <;> omega

/-- The pages of a window. -/
lemma pages_fade (h : simulate p fading (fade n) = some s) (window : n + 1 = 922 * k + 461)
    (summarizes : Summarizes fading s (UInt64.ofNat (touched n)) m) (base : Nat) (o : Fin numBasePages) :
    o ∈ m.pages base ↔ ∃ j ≤ 460, touched (922 * k + j) / pageSize = base * numBasePages + o := by
  have interval : fading.accessInterval.toNat = 461 := rfl
  have start : n + 1 - 461 = 922 * k := by omega
  rw [summarizes.pages (by omega) h, ← fade_succ, length_fade, interval, start]
  simp only [List.mem_iff_getElem, fade, List.getElem_drop, List.length_drop, List.getElem_map, List.getElem_range,
    List.length_map, List.length_range]
  constructor
  · rintro ⟨_, ⟨j, lt, rfl⟩, e⟩
    rw [toNat_touched] at e
    exact ⟨j, by omega, e⟩
  · intro ⟨j, le, e⟩
    refine ⟨_, ⟨j, by omega, rfl⟩, ?_⟩
    rw [toNat_touched]
    exact e

/-- The pages of the region 0 that are touched. -/
lemma touched_zero {j : Nat} (le : j ≤ 460) (o : Fin numBasePages) :
    touched (922 * k + j) / pageSize = 0 * numBasePages + o ↔ 922 * k + j ≠ 460 ∧ j % 460 = o := by
  have lt : o.val < 512 := o.isLt
  unfold touched hugePageSize pageSize
  split <;> omega

/-- The one page of the region 1. -/
lemma touched_one {j : Nat} (o : Fin numBasePages) :
    touched (922 * k + j) / pageSize = 1 * numBasePages + o ↔ 922 * k + j = 460 ∧ o.val = 0 := by
  have lt : o.val < 512 := o.isLt
  unfold touched hugePageSize pageSize numBasePages
  split <;> omega

/-- The number of pages of the regions in a window. -/
lemma card_fade (h : simulate p fading (fade n) = some s) (window : n + 1 = 922 * k + 461)
    (summarizes : Summarizes fading s (UInt64.ofNat (touched n)) m) :
    (m.pages 0).card = 460 ∧ (m.pages 1).card = if k = 0 then 1 else 0 := by
  have first : m.pages 0 = Finset.Iio ⟨460, by decide⟩ := by
    ext o
    rw [pages_fade h window summarizes, Finset.mem_Iio, Fin.lt_def]
    constructor
    · intro ⟨j, le, e⟩
      have := ((touched_zero le o).mp e).2
      show o.val < 460
      omega
    · intro lt
      have lt : o.val < 460 := lt
      exact ⟨o, by omega, (touched_zero (by omega) o).mpr ⟨by omega, by omega⟩⟩
  have second : m.pages 1 = if k = 0 then {⟨0, by decide⟩} else ∅ := by
    ext o
    rw [pages_fade h window summarizes]
    split
    case isTrue zero =>
      rw [Finset.mem_singleton, Fin.ext_iff]
      constructor
      · intro ⟨j, _, e⟩
        exact ((touched_one o).mp e).2
      · intro e
        exact ⟨460, le_refl _, (touched_one o).mpr ⟨by omega, e⟩⟩
    case isFalse later =>
      refine iff_of_false ?_ (Finset.notMem_empty o)
      intro ⟨j, _, e⟩
      have := ((touched_one o).mp e).1
      omega
  refine ⟨by rw [first, Fin.card_Iio], ?_⟩
  rw [second]
  split <;> rfl

/-- A region with a page is covered. -/
lemma mem_coverage {r : Nat} (some : (m.pages r).card ≠ 0) : r ∈ m.coverage := by
  by_contra none
  refine some (Finset.card_eq_zero.mpr ?_)
  rw [State.pages, AList.lookup_eq_none.mpr none]
  rfl

/-- An average of at most one falls when nothing is accessed. -/
lemma leftOver_le (k : Nat) : 0 ≤ leftOver k ∧ leftOver k ≤ 1 := by
  induction k with
  | zero => exact ⟨zero_le_one, le_rfl⟩
  | succ k ih =>
    obtain ⟨nonneg, le⟩ := ih
    obtain ⟨new, _, _⟩ := @mean_spec plain _ 0 nonneg (by linarith) (Nat.zero_le _)
    refine ⟨new, ?_⟩
    obtain ⟨weight, _⟩ := weights_nonneg plain
    have product : 0 ≤ plain.rnd alpha * leftOver k := mul_nonneg weight nonneg
    have none : plain.rnd (plain.rnd (1 - plain.rnd alpha) * (0 : ℕ)) = 0 := by
      rw [Nat.cast_zero, mul_zero]
      exact_mod_cast plain.natCast 0 (Nat.zero_le _)
    have kept := plain.idem _ product
    rw [leftOver, mean, none, add_zero, kept]
    calc plain.rnd (plain.rnd alpha * leftOver k) ≤ plain.rnd (plain.rnd alpha * 1) :=
          plain.mono _ _ product (mul_le_mul_of_nonneg_left le weight)
      _ ≤ 1 := by decide +kernel

/-- What a window finds. -/
lemma Fades.window (fades : Fades n s) (h : simulate plain fading (fade n) = some s) (window : n + 1 = 922 * k + 461)
    (summarizes : Summarizes fading s (UInt64.ofNat (touched n)) m) :
    (∀ r, r ∈ m.coverage ↔ r = 0 ∨ r = 1) ∧ (∀ r ∈ m.coverage, m.ema.get r 0 < 500) ∧
      accEma plain m 0 = 460 ∧ accEma plain m 1 = leftOver k := by
  obtain ⟨card₀, card₁⟩ := card_fade h window summarizes
  have ema := summarizes.ema
  have only : ∀ r ∈ m.coverage, r = 0 ∨ r = 1 := by
    intro r mem
    rw [summarizes.2, mem_cover, region_touched] at mem
    rcases mem with rfl | mem
    · split
      · exact .inr rfl
      · exact .inl rfl
    · exact fades.only r mem
  have zero : 0 ∈ m.coverage := mem_coverage (by rw [card₀]; decide)
  cases k with
  | zero =>
    have fresh : ∀ r, m.ema.find r = none := fun r => by rw [ema]; exact fades.fresh (by omega) r
    have one : 1 ∈ m.coverage := mem_coverage (by rw [card₁]; decide)
    refine ⟨fun r => ⟨only r, by rintro (rfl | rfl) <;> assumption⟩, ?_, ?_, ?_⟩
    · intro r _
      rw [UnorderedMap.get, fresh]
      norm_num
    · rw [accEma, UnorderedMap.contains, fresh, card₀]
      rfl
    · rw [accEma, UnorderedMap.contains, fresh, card₁]
      norm_num [leftOver]
  | succ k =>
    obtain ⟨one, ema₀, ema₁⟩ := fades.faded k (by omega) (by omega)
    rw [← ema] at ema₀ ema₁
    have one : 1 ∈ m.coverage := by
      rw [summarizes.2]
      exact mem_cover.mpr (.inr one)
    refine ⟨fun r => ⟨only r, by rintro (rfl | rfl) <;> assumption⟩, ?_, ?_, ?_⟩
    · intro r mem
      rcases only r mem with rfl | rfl
      · rw [UnorderedMap.get, ema₀]
        norm_num
      · rw [UnorderedMap.get, ema₁]
        have le := (leftOver_le k).2
        show leftOver k < 500
        linarith
    · have stays : mean plain 460 460 = 460 := by decide +kernel
      rw [accEma, UnorderedMap.contains, ema₀, card₀, UnorderedMap.get, ema₀]
      exact stays
    · rw [accEma, UnorderedMap.contains, ema₁, card₁, UnorderedMap.get, ema₁]
      rfl

/-- The windows of the run end where those of `fading` do. -/
lemma due_fade (h : simulate p fading (fade n) = some s) :
    ∃ d, due fading s = some d ∧ (d = true ↔ ∃ k, n + 1 = 922 * k + 461) := by
  have period : fading.period = 461 := rfl
  have interval : fading.accessInterval.toNat = 461 := rfl
  have clock := simulate_clock (by omega) h
  rw [length_fade] at clock
  obtain ⟨d, hd⟩ := clock.due_isSome (.inr (by omega))
  refine ⟨d, hd, ?_⟩
  rw [clock.due (by omega) hd, period, interval]
  simp only [Nat.mul_comm]

/-- The averages after any number of accesses. -/
lemma simulate_fades (n : Nat) : ∃ s, simulate plain fading (fade n) = some s ∧ Fades n s := by
  induction n with
  | zero => exact ⟨init, rfl, fun r mem => absurd mem (AList.notMem_empty r), fun _ _ => rfl, fun k le => by omega⟩
  | succ n ih =>
    obtain ⟨s, hs, fades⟩ := ih
    obtain ⟨d, hd, window⟩ := due_fade hs
    rw [fade_succ]
    cases d with
    | true =>
      obtain ⟨k, e⟩ := window.mp rfl
      obtain ⟨m, summarizes⟩ : ∃ m, Summarizes fading s (UInt64.ofNat (touched n)) m := ⟨_, hd, rfl⟩
      obtain ⟨cov, low, ema₀, ema₁⟩ := fades.window hs e summarizes
      have inv := summarizes.inv (simulate_valid hs)
      have zero := (cov 0).mpr (.inl rfl)
      have one := (cov 1).mpr (.inr rfl)
      obtain ⟨u, hu⟩ := summarize_isSome (p := plain) inv low ⟨0, zero, by rw [ema₀]; norm_num⟩
      obtain ⟨_, same, _, _, placed⟩ := summarize_spec inv hu
      refine ⟨u.close plain, simulate_snoc.mpr ⟨s, hs, summarizes.step hu⟩, ?_, fun lt => by omega, ?_⟩
      · intro r mem
        have mem := mem_clear.mp mem
        rw [same] at mem
        exact (cov r).mp mem
      · intro k' le lt
        obtain rfl : k' = k := by omega
        refine ⟨mem_clear.mpr (same ▸ one), ?_, ?_⟩
        · rw [← ema₀]
          exact (placed 0 zero).2.ema
        · rw [← ema₁]
          exact (placed 1 one).2.ema
    | false =>
      have not : ∀ k, n + 1 ≠ 922 * k + 461 := fun k e => Bool.false_ne_true (window.mpr ⟨k, e⟩)
      obtain ⟨ema, cov⟩ := next_frame (s := s) (a := UInt64.ofNat (touched n)) fading
      refine ⟨_, simulate_snoc.mpr ⟨s, hs, next_step hd⟩, ?_, ?_, ?_⟩
      · intro r mem
        rcases cov r mem with rfl | mem
        · rw [region_touched]
          split
          · exact .inr rfl
          · exact .inl rfl
        · exact fades.only r mem
      · intro lt r
        rw [ema]
        exact fades.fresh (by omega) r
      · intro k le lt
        have := not k
        obtain ⟨mem, known⟩ := fades.faded k (by omega) (by omega)
        rw [ema]
        exact ⟨mem_next mem, known⟩

/-- After the window number `k` the log has a candidate of region 1 with the average that is left of one page. -/
lemma simulate_faded (k : Nat) : ∃ s bucket, simulate plain fading (fade (922 * k + 461)) = some s ∧
    .candidate 1 (leftOver k) bucket ∈ s.cout := by
  obtain ⟨s, hs, fades⟩ := simulate_fades (922 * k + 460)
  obtain ⟨d, hd, window⟩ := due_fade hs
  obtain rfl := window.mpr ⟨k, rfl⟩
  obtain ⟨m, summarizes⟩ : ∃ m, Summarizes fading s (UInt64.ofNat (touched (922 * k + 460))) m := ⟨_, hd, rfl⟩
  obtain ⟨cov, low, ema₀, ema₁⟩ := fades.window hs rfl summarizes
  have inv := summarizes.inv (simulate_valid hs)
  have high : ∃ base ∈ m.coverage, 450 ≤ accEma plain m base := ⟨0, (cov 0).mpr (.inl rfl), by rw [ema₀]; norm_num⟩
  obtain ⟨u, hu⟩ := summarize_isSome (p := plain) inv low high
  have few : m.coverage.keys.length ≤ 2 := by
    have sub : m.coverage.keys ⊆ [0, 1] := by
      intro r mem
      rcases (cov r).mp mem with rfl | rfl
      · exact List.mem_cons_self
      · exact List.mem_cons_of_mem _ List.mem_cons_self
    exact (m.coverage.keys_nodup.subperm sub).length_le
  obtain ⟨bucket, line⟩ := summarize_prints inv (by omega) high hu 1 ((cov 1).mpr (.inr rfl))
  rw [ema₁] at line
  refine ⟨u.close plain, bucket, ?_, line⟩
  rw [show 922 * k + 461 = 922 * k + 460 + 1 from rfl, fade_succ]
  exact simulate_snoc.mpr ⟨s, hs, summarizes.step hu⟩

/-- The average of a region that was touched once, 88 windows ago, is printed as `9.40461e-05`, and the pattern does
    not match that. -/
theorem average_fades : ¬ ∀ as s lines, simulate plain fading as = some s → Logged "sssp" s.cout lines →
    Parsed "sssp" s lines := by
  intro parsed
  obtain ⟨s, bucket, hs, line⟩ := simulate_faded 88
  have matched := (parsed _ s _ hs (logged_printed s.cout)).matched 1 _ bucket line
  obtain ⟨nonneg, pos⟩ := (simulate_printed hs).candidates 1 _ bucket line
  have small : 0 < leftOver 88 ∧ leftOver 88 < leastPlain := by decide +kernel
  rcases (matchLine_candidate nonneg pos).mp matched with zero | large
  · exact small.1.ne' zero
  · exact not_le.mpr small.2 large

end

end

end PromotionCache.Scripts.HawkeyeLog
