import PromotionCache.Lib.Strtol
import PromotionCache.Pcc.SingleSpec
import PromotionCache.Hawkeye.Windows
import Mathlib.Data.List.DropRight

/-!
# The command line of the tool

The `main` of `roi.cpp`: which of its arguments become the values of `common.h`, and when these are divisors that
the tracking of an access can use. The arguments are read with `atol` and `atoi` and not looked at any further, so
all rests on what the user gives (`divides_iff`).
-/

namespace PromotionCache.Pin.Roi
open Lib Tlb Pcc

/-- `NUM_ARGS`: where the mode stands, behind Pin's own arguments and those of the program. -/
def numArgs : Nat := 9

/-- The mode that asks for the promotion cache. -/
def pccStr : List Char := "pcc".toList

/-- `other_benchmarks` -/
def otherBenchmarks : List (List Char) :=
  ["canneal".toList, "dedup".toList, "mcf".toList, "omnetpp".toList, "xalancbmk".toList]

/-- `std::string::compare` -/
def compare : List Char → List Char → Int
  | [], t => -t.length
  | s, [] => s.length
  | c :: s, d :: t => if c = d then compare s t else c.toNat - d.toNat

/-- The lines that `main` prints. -/
inductive Output where
  | arguments (argc : Nat) (path exec : List Char)
  | values (mode : Int) (accessInterval : UInt64) (promotionCacheSize factor : UInt32)

/-- The variables that `main` sets. -/
structure Vars where
  isROI : Bool := false
  mode : Int := 0
  cfg : Config := shipped
  cout : List Output := []

/-- `main`, up to `promotion_cache_init`; without a path, or where `PIN_Init` does not take the arguments, the
    program does not start. -/
def main (pinInit : List (List Char) → Bool) (argv : List (List Char)) : Option Vars := do
  let path ← argv[6]?
  let exec := path.rtakeWhile fun c => c ≠ '/' ∧ c ≠ '\\'
  let mode := if h : numArgs < argv.length then compare pccStr argv[numArgs] else 0
  let cfg :=
    if h : numArgs + 3 < argv.length then
      { shipped with
        accessInterval := UInt64.ofInt (atol argv[numArgs + 1])
        promotionCacheSize := UInt32.ofInt (atoi argv[numArgs + 2])
        factor := UInt32.ofInt (atoi argv[numArgs + 3]) }
    else if h : numArgs + 1 < argv.length then
      -- the argument in front of the mode
      { shipped with
        accessInterval := UInt64.ofInt (atol argv[numArgs - 1])
        promotionCacheSize := 128
        factor := 30 }
    else shipped
  if pinInit argv then none
  else
    some
      { isROI := exec ∈ otherBenchmarks
        mode := mode
        cfg := cfg
        cout := [.arguments argv.length path exec,
          .values mode cfg.accessInterval cfg.promotionCacheSize cfg.factor] }

/-- What follows the accesses, which depends on the mode. -/
inductive Tracker where
  | pcc (sim : Sim)
  | hawkeye (state : Hawkeye.State)

/-- The call of `promotion_cache_init` -/
def Vars.start (v : Vars) : Option Tracker :=
  if v.mode = 0 then (Single.promotionCacheInit v.cfg).map .pcc else some (.hawkeye Hawkeye.init)

/-- `RecordMem` -/
def recordMem (p : Hawkeye.Platform) (v : Vars) (t : Tracker) (addr : UInt64) : Option Tracker :=
  if !v.isROI then some t
  else match t with
    | .pcc sim => (Single.pccTrackAccess v.cfg sim addr).map .pcc
    | .hawkeye state => (Hawkeye.hawkeyeTrackAccess p v.cfg state addr).map .hawkeye

/-- Whether the next access starts a pass or ends a window, which are remainders of its number; a modulus of zero gives
    no answer. -/
def due (cfg : Config) : Tracker → Option Bool
  | .pcc sim =>
    if cfg.period = 0 then none else some (Single.passDue cfg (Single.counted sim).totalNumAccesses)
  | .hawkeye state => Hawkeye.due cfg state

/-- The access, once that is known. -/
def track (p : Hawkeye.Platform) (cfg : Config) (addr : UInt64) (due : Bool) : Tracker → Option Tracker
  | .pcc sim =>
    let passed := if due then Single.summarizePromotions (Single.counted sim) else some (Single.counted sim)
    passed.bind fun sim => (sim.trackAccess cfg.alpha sim.totalNumAccesses addr.toNat).map .pcc
  | .hawkeye state =>
    if due then (Hawkeye.summarize p (state.count.cover addr.toNat)).map fun s => .hawkeye (s.close p)
    else some (.hawkeye (Hawkeye.next cfg state addr))

/-- The divisors of the accesses are not zero, nor is that in the constructor of the promotion cache. -/
structure Vars.Divides (v : Vars) : Prop where
  period : v.cfg.period ≠ 0
  accessInterval : v.cfg.accessInterval.toNat ≠ 0
  assoc : v.mode = 0 → Int.bmod v.cfg.promotionCacheSize.toNat (2 ^ 32) ≠ 0

/-- The three values that a command line gives, and its mode, lead to divisors that are not zero. -/
structure Usable (mode interval size factor : List Char) : Prop where
  period : ¬ 2 ^ 64 ∣ atoi factor % 2 ^ 32 * atol interval
  size : mode = pccStr → atoi size ≠ 0

section
variable {v : Vars} {pinInit : List (List Char) → Bool} {argv : List (List Char)}
  {mode interval size factor seed : List Char}

/-- `compare` returns 0 for two strings that are the same. -/
lemma compare_eq_zero {s t : List Char} : compare s t = 0 ↔ s = t := by
  induction s generalizing t with
  | nil =>
    cases t with
    | nil => simp [compare]
    | cons d t =>
      simp only [compare, List.length_cons, reduceCtorEq, iff_false]
      omega
  | cons c s ih =>
    cases t with
    | nil =>
      simp only [compare, List.length_cons, reduceCtorEq, iff_false]
      omega
    | cons d t =>
      rw [compare, List.cons.injEq]
      split
      case isTrue e => rw [ih, and_iff_right e]
      case isFalse ne =>
        have far : c.toNat ≠ d.toNat := fun e => ne (Char.toNat_inj.mp e)
        constructor
        · intro e
          omega
        · exact fun e => absurd e.1 ne

/-- The product of two arguments, in 64 bits. -/
lemma period_eq_zero {cfg : Config} {f i : Int} (hf : cfg.factor = UInt32.ofInt f)
    (hi : cfg.accessInterval = UInt64.ofInt i) : cfg.period = 0 ↔ 2 ^ 64 ∣ f % 2 ^ 32 * i := by
  rw [Config.period, word, hf, hi, ← Nat.dvd_iff_mod_eq_zero, ← Int.natCast_dvd_natCast, Int.natCast_mul,
    toNat_ofInt32, toNat_ofInt64]
  show (2 ^ 64 : Int) ∣ _ ↔ _
  rw [Int.dvd_iff_emod_eq_zero, Int.dvd_iff_emod_eq_zero, Int.mul_emod, Int.emod_emod, ← Int.mul_emod]

/-- A period that is not zero has an interval that is not. -/
lemma accessInterval_ne_zero {cfg : Config} (h : cfg.period ≠ 0) : cfg.accessInterval.toNat ≠ 0 := by
  intro zero
  rw [Config.period, zero, Nat.mul_zero] at h
  exact h rfl

/-- The associativity is 0 only if the size is. -/
lemma assoc_ne_zero {cfg : Config} : Int.bmod cfg.promotionCacheSize.toNat (2 ^ 32) ≠ 0 ↔
    cfg.promotionCacheSize ≠ 0 := by
  have lt := cfg.promotionCacheSize.toNat_lt
  have zero : cfg.promotionCacheSize = 0 ↔ cfg.promotionCacheSize.toNat = 0 := UInt32.toNat_inj.symm
  rw [ne_eq, ne_eq, not_iff_not, zero]
  constructor
  · intro e
    have dvd := Int.dvd_of_bmod_eq_zero e
    omega
  · intro e
    rw [e]
    rfl

/-- `atoi` gives an `int`. -/
lemma ofInt_atoi_ne_zero {cs : List Char} : UInt32.ofInt (atoi cs) ≠ 0 ↔ atoi cs ≠ 0 := by
  have range := atoi_range cs
  have value := toNat_ofInt32 (atoi cs)
  rw [ne_eq, ne_eq, not_iff_not, ← UInt32.toNat_inj]
  show _ = 0 ↔ _
  omega

/-- What `main` leaves behind. -/
lemma main_inv (h : main pinInit argv = some v) :
    pinInit argv = false ∧
    (v.mode = if h : numArgs < argv.length then compare pccStr argv[numArgs] else 0) ∧
    v.cfg = if h : numArgs + 3 < argv.length then
        { shipped with
          accessInterval := UInt64.ofInt (atol argv[numArgs + 1])
          promotionCacheSize := UInt32.ofInt (atoi argv[numArgs + 2])
          factor := UInt32.ofInt (atoi argv[numArgs + 3]) }
      else if h : numArgs + 1 < argv.length then
        { shipped with
          accessInterval := UInt64.ofInt (atol argv[numArgs - 1])
          promotionCacheSize := 128
          factor := 30 }
      else shipped := by
  obtain ⟨path, _, h⟩ := Option.bind_eq_some_iff.mp h
  dsimp only at h
  split at h
  case isTrue => cases h
  case isFalse taken =>
    obtain rfl := Option.some.inj h
    exact ⟨Bool.eq_false_iff.mpr taken, rfl, rfl⟩

/-- Without further arguments the values of `common.h` stay. -/
lemma main_defaults (h : main pinInit argv = some v) (few : argv.length ≤ numArgs + 1) : v.cfg = shipped := by
  obtain ⟨_, _, cfg⟩ := main_inv h
  rwa [dif_neg (by omega), dif_neg (by omega)] at cfg

/-- All three values and the mode are given. -/
lemma main_given (h : main pinInit argv = some v) (hm : argv[9]? = some mode) (hi : argv[10]? = some interval)
    (hs : argv[11]? = some size) (hf : argv[12]? = some factor) :
    v.mode = compare pccStr mode ∧ v.cfg = { shipped with
      accessInterval := UInt64.ofInt (atol interval)
      promotionCacheSize := UInt32.ofInt (atoi size)
      factor := UInt32.ofInt (atoi factor) } := by
  obtain ⟨_, mode', cfg⟩ := main_inv h
  obtain ⟨_, rfl⟩ := List.getElem?_eq_some_iff.mp hm
  obtain ⟨_, rfl⟩ := List.getElem?_eq_some_iff.mp hi
  obtain ⟨_, rfl⟩ := List.getElem?_eq_some_iff.mp hs
  obtain ⟨more, rfl⟩ := List.getElem?_eq_some_iff.mp hf
  have nine : numArgs = 9 := rfl
  rw [dif_pos (by omega)] at mode'
  rw [dif_pos (by omega)] at cfg
  exact ⟨mode', cfg⟩

/-- Where only some of them are given, the interval is read from the argument in front of the mode. -/
theorem main_partial (h : main pinInit argv = some v) (more : numArgs + 1 < argv.length)
    (few : argv.length ≤ numArgs + 3) (hi : argv[8]? = some seed) :
    v.cfg = { shipped with accessInterval := UInt64.ofInt (atol seed) } := by
  obtain ⟨_, _, cfg⟩ := main_inv h
  obtain ⟨_, rfl⟩ := List.getElem?_eq_some_iff.mp hi
  rw [dif_neg (by omega), dif_pos more] at cfg
  exact cfg

/-- The constructor of the promotion cache comes to its end, if it does not divide by zero. -/
lemma initCore_some {cfg : Config} (h : Int.bmod cfg.promotionCacheSize.toNat (2 ^ 32) ≠ 0) :
    ∃ core, initCore cfg = some core := by
  have built : ∀ size, ∃ c, FunctionalCache.new size (Int.bmod cfg.promotionCacheSize.toNat (2 ^ 32)) pageSize 2 =
      some c := by
    intro size
    unfold FunctionalCache.new
    rw [if_neg h]
    exact ⟨_, rfl⟩
  obtain ⟨c, hc⟩ := built (cfg.promotionCacheSize.toNat * pageSize % 2 ^ 32)
  rw [initCore, hc]
  exact ⟨_, rfl⟩

/-- An access that is recorded takes its remainders and goes on from there. -/
theorem recordMem_eq (p : Hawkeye.Platform) (t : Tracker) (addr : UInt64) : recordMem p v t addr =
    if !v.isROI then some t else (due v.cfg t).bind fun d => track p v.cfg addr d t := by
  unfold recordMem
  split
  case isTrue => rfl
  case isFalse =>
    cases t with
    | pcc sim =>
      simp only [Single.pccTrackAccess, Single.countAccess, due, track, Single.counted, Option.bind_eq_bind]
      split
      case isTrue => rfl
      case isFalse =>
        rw [Option.map_bind, Option.bind_some]
        rfl
    | hawkeye state =>
      simp only [Hawkeye.hawkeyeTrackAccess_eq, due, track, Option.map_bind]
      congr 1
      funext d
      cases d with
      | false => rfl
      | true => exact Option.map_map _ _ _

/-- The tool starts, and every access has its remainders, if and only if the divisors are not zero. -/
theorem divides_iff_defined : v.Divides ↔
    (∃ t, v.start = some t) ∧ ∀ t : Tracker, ∃ d, due v.cfg t = some d := by
  constructor
  · intro divides
    constructor
    · unfold Vars.start
      split
      case isTrue pcc =>
        obtain ⟨core, hcore⟩ := initCore_some (divides.assoc pcc)
        rw [Single.promotionCacheInit, hcore]
        exact ⟨_, rfl⟩
      case isFalse => exact ⟨_, rfl⟩
    · intro t
      cases t with
      | pcc sim => exact ⟨_, if_neg divides.period⟩
      | hawkeye state =>
        show ∃ d, Hawkeye.due v.cfg state = some d
        unfold Hawkeye.due
        split
        case isTrue => exact ⟨_, if_neg divides.accessInterval⟩
        case isFalse => exact ⟨_, if_neg divides.period⟩
  · rintro ⟨⟨t, starts⟩, due⟩
    constructor
    case period =>
      intro zero
      obtain ⟨d, hd⟩ := due (.hawkeye { Hawkeye.init with tracking := false })
      cases (if_pos zero).symm.trans hd
    case accessInterval =>
      intro zero
      obtain ⟨d, hd⟩ := due (.hawkeye Hawkeye.init)
      cases (if_pos zero).symm.trans hd
    case assoc =>
      intro pcc
      rw [Vars.start, if_pos pcc] at starts
      obtain ⟨sim, hsim, _⟩ := Option.map_eq_some_iff.mp starts
      have pos := Single.promotionCacheInit_pos hsim
      refine assoc_ne_zero.mpr fun zero => ?_
      rw [zero] at pos
      exact absurd pos (by decide)

/-- What the three values have to be. -/
lemma divides_iff_usable (hmode : v.mode = compare pccStr mode) (cfg : v.cfg = { shipped with
      accessInterval := UInt64.ofInt (atol interval)
      promotionCacheSize := UInt32.ofInt (atoi size)
      factor := UInt32.ofInt (atoi factor) }) : v.Divides ↔ Usable mode interval size factor := by
  have period : v.cfg.period = 0 ↔ 2 ^ 64 ∣ atoi factor % 2 ^ 32 * atol interval :=
    period_eq_zero (by rw [cfg]) (by rw [cfg])
  have pcc : v.mode = 0 ↔ mode = pccStr := by rw [hmode, compare_eq_zero, eq_comm]
  have assoc : Int.bmod v.cfg.promotionCacheSize.toNat (2 ^ 32) ≠ 0 ↔ atoi size ≠ 0 := by
    rw [assoc_ne_zero, cfg]
    exact ofInt_atoi_ne_zero
  constructor
  · intro divides
    exact ⟨mt period.mpr divides.period, fun e => assoc.mp (divides.assoc (pcc.mpr e))⟩
  · intro usable
    have ne := mt period.mp usable.period
    exact ⟨ne, accessInterval_ne_zero ne, fun e => assoc.mpr (usable.size (pcc.mp e))⟩

/-- Where a command line gives none or all of the values, the divisors are not zero if and only if the arguments
    say so. -/
theorem divides_iff (h : main pinInit argv = some v)
    (whole : argv.length ≤ numArgs + 1 ∨ numArgs + 3 < argv.length) :
    v.Divides ↔ ∀ {mode interval size factor}, argv[9]? = some mode → argv[10]? = some interval →
      argv[11]? = some size → argv[12]? = some factor → Usable mode interval size factor := by
  have nine : numArgs = 9 := rfl
  rcases whole with few | more
  · have cfg := main_defaults h few
    have divides : v.Divides := by
      constructor
      · rw [cfg]
        decide
      · rw [cfg]
        decide
      · intro _
        rw [cfg]
        decide
    refine iff_of_true divides ?_
    intro _ _ _ _ _ hi
    have beyond := (List.getElem?_eq_some_iff.mp hi).1
    omega
  · constructor
    · intro divides mode interval size factor hm hi hs hf
      obtain ⟨mode', cfg⟩ := main_given h hm hi hs hf
      exact (divides_iff_usable mode' cfg).mp divides
    · intro usable
      have hm := List.getElem?_eq_getElem (by omega : 9 < argv.length)
      have hi := List.getElem?_eq_getElem (by omega : 10 < argv.length)
      have hs := List.getElem?_eq_getElem (by omega : 11 < argv.length)
      have hf := List.getElem?_eq_getElem (by omega : 12 < argv.length)
      obtain ⟨mode', cfg⟩ := main_given h hm hi hs hf
      exact (divides_iff_usable mode' cfg).mpr (usable hm hi hs hf)

end

/-- A command line for bfs from vertex 0, with the three values. -/
def bfs (interval size factor : String) : List (List Char) :=
  ["pin", "-injection", "child", "-t", "roi.so", "--", "main", "data/", "0", "pcc", interval, size, factor].map
    String.toList

/-- The values that `run.sh` gives. -/
theorem divides_iff_bfs :
    ∃ v, main (fun _ => false) (bfs "1000000000" "128" "30") = some v ∧ v.Divides := by
  obtain ⟨v, h⟩ : ∃ v, main (fun _ => false) (bfs "1000000000" "128" "30") = some v := ⟨_, rfl⟩
  refine ⟨v, h, (divides_iff h (.inr (by decide))).mpr ?_⟩
  intro mode interval size factor _ hi hs hf
  obtain rfl := Option.some.inj hi
  obtain rfl := Option.some.inj hs
  obtain rfl := Option.some.inj hf
  exact ⟨by decide, fun _ => by decide⟩

/-- With an interval of 0 the first access of the promotion cache divides by zero. -/
theorem zero_not_divides : ∃ v, main (fun _ => false) (bfs "0" "128" "30") = some v ∧ ¬ v.Divides := by
  exact ⟨_, rfl, fun divides => divides.accessInterval (by decide)⟩

end PromotionCache.Pin.Roi
