import PromotionCache.Lib.Rounding
import PromotionCache.Lib.Text
import PromotionCache.Reuse.Kernels

/-!
# Comparing reuse distances

What `summarize` of `reuse/reuse.h` prints with pages of one size, and `process_file` of `compare_reuse.py`, which
reads it back for three sizes. The numbers of pages are text of hexadecimal digits; the distance and the count of a
line are what the text says of the entry.

A distance of a huge page is stored under its number less that of the first one of the region, and it is looked up
under the distance of the small page from the first small page (`hpAddr_eq_iff`).
-/

namespace PromotionCache.Reuse
open Lib PromotionCache.Graph

/-- `data_names` -/
inductive DataName where
  | nodeArray
  | edgeArray
  | propArray
  | inWl
  | outWl
  deriving DecidableEq

/-- The lines of a file: the one that begins a region, the one of a page and the last one of a region. -/
inductive Line where
  | region (name : DataName) (starting ending : List Char)
  | page (base : List Char) (reuseDist : ℚ) (n : ℕ)
  | combined

/-- What `summarize` prints for a region. -/
def summarizeRegion (reusePageSize : ℕ) (reuseMap : UnorderedMap ℕ Entry) (shown : ℕ → ℚ × ℕ) (name : DataName)
    (region : ℕ × ℕ) : List Line :=
  .region name (Nat.toDigits 16 (region.1 / reusePageSize))
      (Nat.toDigits 16 ((region.2 + reusePageSize - 1) / reusePageSize)) ::
    ((summarized reusePageSize reuseMap region).map fun base =>
      .page (Nat.toDigits 16 base) (shown base).1 (shown base).2) ++ [.combined]

/-- `summarize` -/
def summarize (reusePageSize : ℕ) (reuseMap : UnorderedMap ℕ Entry) (shown : ℕ → ℚ × ℕ)
    (regions : List (DataName × ℕ × ℕ)) : List Line :=
  regions.flatMap fun (name, region) => summarizeRegion reusePageSize reuseMap shown name region

/-- What `process_file` takes from a line of a page, and the start of the region. -/
structure PageLine where
  start : ℕ
  addr : ℕ
  dist : ℚ
  freq : ℕ

/-- `reading` and `start`, and the lines so far. -/
structure Reader where
  reading : Bool
  start : ℕ
  lines : List PageLine

/-- The body of the loops over the lines, up to what is done with a page. -/
def readLine (regionName : DataName) (s : Reader) : Line → Option Reader
  | .region name starting _ =>
    if name = regionName ∧ !s.reading then
      (parseNat 16 starting).map fun start => { s with reading := true, start }
    else some s
  | .page base dist freq =>
    if s.reading then
      (parseNat 16 base).map fun addr => { s with lines := s.lines ++ [⟨s.start, addr, dist, freq⟩] }
    else some s
  | .combined => some { s with reading := false }

/-- The lines of a region in one of the files. -/
def readLines (regionName : DataName) (file : List Line) : Option (List PageLine) :=
  (file.foldlM (readLine regionName) ⟨false, 0, []⟩).map (·.lines)

/-- The key of a page in its dictionary: `addr-start` -/
def storedKey (addr start : ℕ) : ℤ := (addr : ℤ) - start

/-- `reuse_dist`, or `gb_reuse_dist` -/
def readDists (lines : List PageLine) : UnorderedMap ℤ ℚ :=
  lines.foldl (fun dists l => dists.set (storedKey l.addr l.start) l.dist) .empty

/-- `NUM_4KB` -/
def num4kb : ℕ := 512

/-- `int((addr-start_4kb)/NUM_4KB)` -/
def hpAddr (addr start4kb : ℕ) : ℤ := truncate (flSigned 53 (((addr : ℚ) - start4kb) / num4kb))

/-- `int((addr-start_4kb)/NUM_4KB/NUM_4KB)` -/
def hpAddr1g (addr start4kb : ℕ) : ℤ :=
  truncate (flSigned 53 (flSigned 53 (((addr : ℚ) - start4kb) / num4kb) / num4kb))

/-- The lists that a page can come into. -/
inductive Kind where
  | reg
  | upgrade
  | sparse
  | oneG

/-- An element of the four lists of a kind. -/
structure Point where
  kind : Kind
  x : ℚ
  y : ℚ
  addr : ℤ
  freq : ℕ

/-- `TLB_SIZE_1G` -/
def tlbSize1g : ℚ := 4

/-- The point of a page, unless a dictionary does not have a key. -/
def pointOf (tlbSize : ℚ) (dists gbDists : UnorderedMap ℤ ℚ) (l : PageLine) : Option Point := do
  let huge ← dists.find (hpAddr l.addr l.start)
  let point (kind : Kind) : Point :=
    { kind
      x := l.dist
      y := if huge < 0 then 0 else huge
      addr := (l.addr : ℤ) - l.start
      freq := l.freq }
  if tlbSize ≤ l.dist then
    if huge < tlbSize then some (point .upgrade)
    else do
      let gb ← gbDists.find (hpAddr1g l.addr l.start)
      if gb < tlbSize1g then some (point .oneG) else some (point .sparse)
  else some (point .reg)

/-- `process_file`, with the lines of the three files; a file that is missing has none. -/
def processFile (tlbSize : ℚ) (regionName : DataName) (gb mb kb : List Line) : Option (List Point) := do
  let gb ← readLines regionName gb
  let mb ← readLines regionName mb
  let kb ← readLines regionName kb
  kb.mapM (pointOf tlbSize (readDists mb) (readDists gb))

variable {reusePageSize : ℕ} {reuseMap : UnorderedMap ℕ Entry} {shown : ℕ → ℚ × ℕ} {name regionName : DataName}
  {region : ℕ × ℕ} {regions : List (DataName × ℕ × ℕ)} {s : Reader}

/-- The lines of the pages of a region. -/
def pageLines (reusePageSize : ℕ) (reuseMap : UnorderedMap ℕ Entry) (shown : ℕ → ℚ × ℕ) (region : ℕ × ℕ) :
    List PageLine :=
  (summarized reusePageSize reuseMap region).map fun base =>
    ⟨region.1 / reusePageSize, base, (shown base).1, (shown base).2⟩

/-- The lines of pages are kept while the region is read. -/
lemma foldlM_pages (bases : List ℕ) :
    (bases.map fun base => Line.page (Nat.toDigits 16 base) (shown base).1 (shown base).2).foldlM
        (readLine regionName) s =
      some { s with lines := s.lines ++ if s.reading then
        (bases.map fun base => ⟨s.start, base, (shown base).1, (shown base).2⟩) else [] } := by
  induction bases generalizing s with
  | nil =>
    rw [List.map_nil, List.foldlM_nil, List.map_nil, ite_self, List.append_nil]
    rfl
  | cons base bases ih =>
    have digits : parseNat 16 (Nat.toDigits 16 base) = some base := parseNat_toDigits (by decide) (by decide)
    rw [List.map_cons, List.foldlM_cons, readLine, digits]
    cases reading : s.reading with
    | false =>
      rw [if_neg (by decide)]
      exact (ih (s := s)).trans (by rw [reading]; rfl)
    | true =>
      rw [if_pos rfl]
      refine ih.trans ?_
      simp

/-- A region is read if it has the name, with its pages and its first page. -/
lemma foldlM_region (reusePageSize : ℕ) (reuseMap : UnorderedMap ℕ Entry) (shown : ℕ → ℚ × ℕ) (name : DataName)
    (region : ℕ × ℕ) (idle : s.reading = false) :
    ∃ start, (summarizeRegion reusePageSize reuseMap shown name region).foldlM (readLine regionName) s =
      some ⟨false, start, s.lines ++ if name = regionName then
        pageLines reusePageSize reuseMap shown region else []⟩ := by
  have digits : parseNat 16 (Nat.toDigits 16 (region.1 / reusePageSize)) = some (region.1 / reusePageSize) :=
    parseNat_toDigits (by decide) (by decide)
  rw [summarizeRegion, List.cons_append, List.foldlM_cons, readLine, digits, idle]
  by_cases same : name = regionName
  · refine ⟨region.1 / reusePageSize, ?_⟩
    rw [if_pos ⟨same, rfl⟩, if_pos same]
    refine (congrArg (· >>= _) rfl).trans ?_
    show List.foldlM _ _ (_ ++ _) = _
    rw [List.foldlM_append, foldlM_pages]
    rfl
  · refine ⟨s.start, ?_⟩
    rw [if_neg (fun h => same h.1), if_neg same]
    show List.foldlM _ _ (_ ++ _) = _
    rw [List.foldlM_append, foldlM_pages, idle]
    rfl

/-- The lines that are read are those of the regions of the name. -/
theorem readLines_summarize : readLines regionName (summarize reusePageSize reuseMap shown regions) =
    some ((regions.filter (·.1 = regionName)).flatMap fun r => pageLines reusePageSize reuseMap shown r.2) := by
  have loop : ∀ s : Reader, s.reading = false → ∃ start,
      (summarize reusePageSize reuseMap shown regions).foldlM (readLine regionName) s =
        some ⟨false, start, s.lines ++
          (regions.filter (·.1 = regionName)).flatMap fun r => pageLines reusePageSize reuseMap shown r.2⟩ := by
    induction regions with
    | nil =>
      intro s idle
      refine ⟨s.start, ?_⟩
      rw [List.filter_nil, List.flatMap_nil, List.append_nil, ← idle]
      rfl
    | cons r regions ih =>
      intro s idle
      obtain ⟨start, first⟩ := foldlM_region reusePageSize reuseMap shown r.1 r.2 idle
      obtain ⟨start', rest⟩ := ih _ (rfl : (Reader.mk false start _).reading = false)
      refine ⟨start', ?_⟩
      rw [summarize, List.flatMap_cons, List.foldlM_append, first]
      refine rest.trans ?_
      rw [List.filter_cons, List.append_assoc]
      by_cases same : r.1 = regionName <;> simp [same]
  obtain ⟨start, run⟩ := loop ⟨false, 0, []⟩ rfl
  rw [readLines, run]
  rfl

/-- The distance of pages of the address space is divided exactly. -/
lemma hpAddr_eq {addr start : ℕ} (le : start ≤ addr) (small : addr < 2 ^ 53) :
    hpAddr addr start = ((addr - start) / 512 : ℕ) := by
  obtain ⟨d, rfl⟩ := Nat.exists_eq_add_of_le le
  have exact : fl 53 (d : ℚ) = d := fl_of_representable ⟨d, 0, by omega, by omega⟩
  have size : ((num4kb : ℕ) : ℚ) = 2 ^ 9 := by norm_num [num4kb]
  have diff : ((start + d : ℕ) : ℚ) - start = d := by push_cast; ring
  have nonneg : (0 : ℚ) ≤ (d : ℚ) / 2 ^ 9 := by positivity
  have whole : (d : ℚ) / 2 ^ 9 = (d : ℚ) / (512 : ℕ) := by norm_num
  rw [hpAddr, diff, size, flSigned, if_neg nonneg.not_gt, fl_div_two_pow (Nat.cast_nonneg d), exact, truncate,
    if_neg nonneg.not_gt, whole, Rat.floor_natCast_div_natCast, Nat.add_sub_cancel_left]
  norm_cast

/-- A page is looked up under the key of its own huge page if and only if it comes no earlier in it than the first page
    of the region comes in the first huge page. -/
theorem hpAddr_eq_iff (region : ℕ × ℕ) (p : ℕ) (fits : region.2 ≤ 2 ^ 64) (first : region.1 / 4096 ≤ p)
    (last : p < (region.2 + 4095) / 4096) :
    hpAddr p (region.1 / 4096) = storedKey (p * 4096 / 2 ^ 21) (region.1 / 2 ^ 21) ↔
      region.1 / 4096 % 512 ≤ p % 512 := by
  have huge : p * 4096 / 2 ^ 21 = p / 512 := by omega
  have start : region.1 / 2 ^ 21 = region.1 / 4096 / 512 := by omega
  rw [hpAddr_eq first (by omega), storedKey, huge, start]
  omega

/-- A page in a region that is aligned. -/
theorem hpAddr_eq_iff_aligned :
    hpAddr 600 (2 ^ 21 / 4096) = storedKey (600 * 4096 / 2 ^ 21) (2 ^ 21 / 2 ^ 21) ↔ 2 ^ 21 / 4096 % 512 ≤ 600 % 512 :=
  hpAddr_eq_iff (2 ^ 21, 2 ^ 22) 600 (by decide) (by decide) (by decide)

/-- The first page of the second huge page, in a region that begins with the second page of the first one. -/
theorem hpAddr_ne : ¬ ∀ (region : ℕ × ℕ) (p : ℕ), region.2 ≤ 2 ^ 64 → region.1 / 4096 ≤ p →
    p < (region.2 + 4095) / 4096 →
    hpAddr p (region.1 / 4096) = storedKey (p * 4096 / 2 ^ 21) (region.1 / 2 ^ 21) := by
  intro own
  have key := own (2101248, 8388608) 1024 (by decide) (by decide) (by decide)
  rw [hpAddr_eq (by decide) (by decide)] at key
  exact absurd key (by decide)

end PromotionCache.Reuse
