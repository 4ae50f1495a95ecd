import PromotionCache.Graph.BinRoundTrip

/-!
# The converter checks its files

`parse_bin_files` of `edgelist_to_binary.cpp`, which reads back what `print_binary_file` wrote, with the comparison
that `CHECK` adds at its end. The files always give the graph back, and the last round of the comparison is about
elements behind the end of the arrays (`selfCheck_spec`).
-/

namespace PromotionCache.Graph.EdgelistToBinary
open Lib

/-- What `malloc` leaves in the arrays of `parse_bin_files`, by array and element; a temporary array is used for elements
    of four bytes. -/
structure Memory where
  nodeArray : ℕ → UInt64
  tmpNodeArray : ℕ → UInt32
  edgeArray : ℕ → UInt64
  tmpEdgeArray : ℕ → UInt32
  edgeValues : ℕ → UInt32

/-- An array of the graph, read from a file with elements of eight bytes, or of four that are widened. -/
def readWidened (edges : ℕ) (contents : ℕ → UInt64) (tmp : ℕ → UInt32) (n : ℕ) (file : List UInt8) : List UInt64 :=
  if maxEdges < edges then freadArray 8 (malloc contents n) file
  else freadArray 4 (malloc (fun i => (tmp i).toUInt64) n) file

/-- The arrays of `parse_bin_files`. -/
def readArrays (mem : Memory) (files : Dataset) (nodes edges : ℕ) : Csr Int32 where
  nodes
  edges
  nodeArray := readWidened edges mem.nodeArray mem.tmpNodeArray (nodes + 1) files.nodeArray
  edgeArray := readWidened edges mem.edgeArray mem.tmpEdgeArray edges files.edgeArray
  edgeValues := (freadArray 4 (malloc (fun i => (mem.edgeValues i).toUInt64) edges) files.edgeValues).map
    fun x => x.toUInt32.toInt32

/-- `parse_bin_files`, up to `CHECK`. The loops that widen the arrays count in an `unsigned int`. -/
def parseBinFiles (mem : Memory) (files : Dataset) : Option (Csr Int32) :=
  (readSizes files).bind fun (nodes, edges) =>
    if edges ≤ maxEdges ∧ 2 ^ 32 ≤ nodes + 1 then none else some (readArrays mem files nodes edges)

/-- A read of an array of so many elements. -/
structure Access where
  length : ℕ
  index : ℕ

/-- What the comparison has come to, with the reads it has made. -/
structure Checked where
  passed : Bool
  accesses : List Access

/-- An element of an array, or what is in memory behind it. -/
def elementAt {W : Type} (array : List W) (beyond : ℕ → W) (i : ℕ) : W := array[i]?.getD (beyond i)

/-- `assert(a[i] == b[i])`; nothing comes after an assertion that fails. -/
def compare {W : Type} [DecidableEq W] (a b : List W) (beyondA beyondB : ℕ → W) (s : Checked) (i : ℕ) : Checked :=
  if s.passed then
    { passed := elementAt a beyondA i = elementAt b beyondB i
      accesses := s.accesses ++ [⟨a.length, i⟩, ⟨b.length, i⟩] }
  else s

/-- What is in memory behind the arrays of a graph. -/
structure Beyond where
  nodeArray : ℕ → UInt64
  edgeArray : ℕ → UInt64
  edgeValues : ℕ → Int32

/-- The comparison of `ret` with `to_check`. -/
def check (ret toCheck : Csr Int32) (m m' : Beyond) : Checked :=
  let s : Checked := ⟨toCheck.nodes = ret.nodes ∧ toCheck.edges = ret.edges, []⟩
  let s := (List.range (ret.nodes + 1)).foldl (compare ret.nodeArray toCheck.nodeArray m.nodeArray m'.nodeArray) s
  (List.range (ret.edges + 1)).foldl (fun s i =>
    compare ret.edgeValues toCheck.edgeValues m.edgeValues m'.edgeValues
      (compare ret.edgeArray toCheck.edgeArray m.edgeArray m'.edgeArray s i) i) s

/-- What `main` does with a graph that it has read: the graph that comes back from the files, and its comparison. -/
def selfCheck (mem : Memory) (m m' : Beyond) (G : Csr Int32) : Option (Csr Int32 × Checked) := do
  let files ← printBinaryFile G
  let ret ← parseBinFiles mem files
  some (ret, check ret G m m')

/-- The graph is read back, the comparison passes, and no array is read at or beyond its length. -/
def ChecksItself (G : CsrGraph) (mem : Memory) (m m' : Beyond) : Prop :=
  ∃ c, selfCheck mem m m' (G.arrays Int32.ofNat) = some (G.arrays Int32.ofNat, c) ∧ c.passed = true ∧
    ∀ a ∈ c.accesses, a.index < a.length

variable {G : CsrGraph} {mem : Memory} {m m' : Beyond} {n : ℕ} {s : Checked}

/-- Elements of four bytes are read back whatever is in memory. -/
lemma freadArray_narrow (values : List ℕ) (fit : ∀ v ∈ values, v < 2 ^ 32) (tmp : ℕ → UInt32) :
    freadArray 4 (malloc (fun i => (tmp i).toUInt64) values.length) (values.flatMap (toBytes 4)) =
      values.map UInt64.ofNat := by
  refine freadArray_of_lt values fit length_malloc fun s mem => ?_
  obtain ⟨i, _, rfl⟩ := List.mem_map.mp mem
  exact (tmp i).toNat_lt

/-- Words that were written in 4 bytes each are read as they were. -/
lemma readWidened_ofFn {edges : ℕ} (few : edges ≤ maxEdges) (f : Fin n → ℕ) (fit : ∀ i, f i < 2 ^ 32)
    (contents : ℕ → UInt64) (tmp : ℕ → UInt32) :
    readWidened edges contents tmp n ((List.ofFn f).flatMap (toBytes 4)) = List.ofFn fun i => UInt64.ofNat (f i) := by
  have back := freadArray_narrow (List.ofFn f) (by simpa using fit) tmp
  rw [List.length_ofFn, List.map_ofFn] at back
  rw [readWidened, if_neg (Nat.not_lt_of_le few)]
  exact back

/-- A weight is read back. -/
lemma weights_back (f : Fin n → ℕ) (tmp : ℕ → UInt32) :
    (freadArray 4 (malloc (fun i => (tmp i).toUInt64) n)
        ((List.ofFn fun e => Int32.ofNat (f e)).flatMap fun x => toBytes 4 x.toUInt32.toNat)).map
      (fun x => x.toUInt32.toInt32) = List.ofFn fun e => Int32.ofNat (f e) := by
  have bytes : ((List.ofFn fun e => Int32.ofNat (f e)).flatMap fun x => toBytes 4 x.toUInt32.toNat) =
      ((List.ofFn fun e => Int32.ofNat (f e)).map fun x => x.toUInt32.toNat).flatMap (toBytes 4) := by
    rw [List.flatMap_map]
  have back := freadArray_narrow ((List.ofFn fun e => Int32.ofNat (f e)).map fun x => x.toUInt32.toNat)
    (fun v hv => by
      obtain ⟨x, _, rfl⟩ := List.mem_map.mp hv
      exact x.toUInt32.toNat_lt) tmp
  rw [List.length_map, List.length_ofFn] at back
  rw [bytes, back, List.map_map, List.map_map]
  refine (List.map_congr_left fun x _ => ?_).trans (List.map_id _)
  have narrow : (UInt64.ofNat x.toUInt32.toNat).toUInt32 = x.toUInt32 := by
    rw [UInt64.toUInt32_ofNat', UInt32.ofNat_toNat]
  exact congrArg UInt32.toInt32 narrow

/-- The files of a graph give it back. -/
lemma parseBinFiles_back (mem : Memory) (nodes : G.nodes < 2 ^ 32 - 1) (edges : G.edges < 2 ^ 32 - 1) :
    ∃ files, printBinaryFile (G.arrays Int32.ofNat) = some files ∧
      parseBinFiles mem files = some (G.arrays Int32.ofNat) := by
  obtain ⟨first, second⟩ := extract_numbers (show G.nodes < 2 ^ 64 by omega) (show G.edges < 2 ^ 64 by omega)
  have few : G.edges ≤ maxEdges := by
    unfold maxEdges
    omega
  have four : width G.edges = 4 := if_neg (Nat.not_lt_of_le few)
  have ends : ¬ (G.edges ≤ maxEdges ∧ 2 ^ 32 ≤ G.nodes + 1) := by omega
  have memory : 8 * (G.nodes + 1) < 2 ^ 64 ∧ 8 * G.edges < 2 ^ 64 := by omega
  have nodeFit : ∀ i, G.nodeArray i < 2 ^ 32 := fun i => by
    have := G.nodeArray_le i
    omega
  have edgeFit : ∀ e, (G.edgeArray e).val < 2 ^ 32 := fun e => by omega
  have nodeBytes := flatMap_ofFn (w := 4) G.nodeArray fun i => (nodeFit i).trans (by decide)
  have edgeBytes := flatMap_ofFn (w := 4) (fun e => (G.edgeArray e).val) fun e => (edgeFit e).trans (by decide)
  refine ⟨_, if_neg ends, ?_⟩
  simp only [CsrGraph.arrays, parseBinFiles, readArrays, readSizes, first, second, Option.bind_eq_bind, Option.bind_some,
    if_pos memory, if_neg ends, four, nodeBytes, edgeBytes, readWidened_ofFn few _ nodeFit,
    readWidened_ofFn few _ edgeFit, weights_back]

/-- The comparison passes so far, and has read no array at or beyond its length. -/
structure Checked.Sound (s : Checked) : Prop where
  passed : s.passed = true
  inside : ∀ a ∈ s.accesses, a.index < a.length

section
variable {W : Type} [DecidableEq W] {a : List W} {b b' : ℕ → W} {i : ℕ}

/-- A round on the same array, inside it. -/
lemma Checked.Sound.compare (h : s.Sound) (lt : i < a.length) : (compare a a b b' s i).Sound := by
  rw [EdgelistToBinary.compare, if_pos h.passed]
  constructor
  · simp [elementAt, lt]
  · intro x mem
    rcases List.mem_append.mp mem with mem | mem
    · exact h.inside x mem
    · simp only [List.mem_cons, List.not_mem_nil, or_false, or_self] at mem
      rw [mem]
      exact lt

/-- Rounds over an array, inside it. -/
lemma Checked.Sound.foldl_compare (b b' : ℕ → W) (h : s.Sound) (le : n ≤ a.length) :
    ((List.range n).foldl (EdgelistToBinary.compare a a b b') s).Sound := by
  induction n with
  | zero => exact h
  | succ n ih =>
    rw [List.range_succ, List.foldl_append]
    exact (ih (Nat.le_of_succ_le le)).compare le

/-- A round behind the ends of two arrays compares what is there. -/
lemma compare_beyond (a : List W) (b b' : ℕ → W) (h : s.Sound) :
    EdgelistToBinary.compare a a b b' s a.length =
      ⟨b a.length = b' a.length, s.accesses ++ [⟨a.length, a.length⟩, ⟨a.length, a.length⟩]⟩ := by
  rw [EdgelistToBinary.compare, if_pos h.passed]
  simp [elementAt]

end

/-- The rounds over the edges that are inside the arrays. -/
lemma Checked.Sound.foldl_edges (m m' : Beyond) (ret : Csr Int32) (h : s.Sound) (edges : n ≤ ret.edgeArray.length)
    (values : n ≤ ret.edgeValues.length) :
    ((List.range n).foldl (fun s i =>
      EdgelistToBinary.compare ret.edgeValues ret.edgeValues m.edgeValues m'.edgeValues
        (EdgelistToBinary.compare ret.edgeArray ret.edgeArray m.edgeArray m'.edgeArray s i) i) s).Sound := by
  induction n with
  | zero => exact h
  | succ n ih =>
    rw [List.range_succ, List.foldl_append]
    exact ((ih (Nat.le_of_succ_le edges) (Nat.le_of_succ_le values)).compare edges).compare values

/-- The rounds up to the last one on a graph that is compared with itself, and the last one, which is behind the ends
    of the arrays of the edges. -/
lemma check_eq (m m' : Beyond) (ret : Csr Int32) (nodes : ret.nodeArray.length = ret.nodes + 1)
    (edges : ret.edgeArray.length = ret.edges) (values : ret.edgeValues.length = ret.edges) :
    ∃ s : Checked, s.Sound ∧ check ret ret m m' =
      EdgelistToBinary.compare ret.edgeValues ret.edgeValues m.edgeValues m'.edgeValues
        ⟨m.edgeArray ret.edges = m'.edgeArray ret.edges, s.accesses ++ [⟨ret.edges, ret.edges⟩, ⟨ret.edges, ret.edges⟩]⟩
        ret.edges := by
  have start : Checked.Sound ⟨ret.nodes = ret.nodes ∧ ret.edges = ret.edges, []⟩ :=
    ⟨by simp, fun a mem => by cases mem⟩
  have rounds := (start.foldl_compare m.nodeArray m'.nodeArray nodes.ge).foldl_edges m m' ret edges.ge values.ge
  refine ⟨_, rounds, ?_⟩
  have last := compare_beyond ret.edgeArray m.edgeArray m'.edgeArray rounds
  rw [edges] at last
  rw [check, List.range_succ (n := ret.edges), List.foldl_append, List.foldl_cons, List.foldl_nil, last]

/-- The comparison of a graph with itself: it passes where the words behind the arrays of the edges agree, and these
    are all that it reads outside the arrays. -/
lemma check_self (ret : Csr Int32) (nodes : ret.nodeArray.length = ret.nodes + 1)
    (edges : ret.edgeArray.length = ret.edges) (values : ret.edgeValues.length = ret.edges) :
    ((check ret ret m m').passed = true ↔
      m.edgeArray ret.edges = m'.edgeArray ret.edges ∧ m.edgeValues ret.edges = m'.edgeValues ret.edges) ∧
    ⟨ret.edges, ret.edges⟩ ∈ (check ret ret m m').accesses ∧
    ∀ a ∈ (check ret ret m m').accesses, a.length ≤ a.index → a = ⟨ret.edges, ret.edges⟩ := by
  obtain ⟨s, sound, eq⟩ := check_eq m m' ret nodes edges values
  have old : ∀ a ∈ s.accesses, a.length ≤ a.index → a = ⟨ret.edges, ret.edges⟩ := fun a mem le =>
    absurd (sound.inside a mem) (Nat.not_lt_of_le le)
  rw [eq]
  by_cases same : m.edgeArray ret.edges = m'.edgeArray ret.edges
  · have beyond : elementAt ret.edgeValues m.edgeValues ret.edges = m.edgeValues ret.edges ∧
        elementAt ret.edgeValues m'.edgeValues ret.edges = m'.edgeValues ret.edges := by
      simp [elementAt, values]
    rw [EdgelistToBinary.compare, if_pos (decide_eq_true same), beyond.1, beyond.2, values]
    refine ⟨by simp [same], by simp, fun a mem le => ?_⟩
    rcases List.mem_append.mp mem with mem | mem
    · rcases List.mem_append.mp mem with mem | mem
      · exact old a mem le
      · simpa using mem
    · simpa using mem
  · rw [EdgelistToBinary.compare, if_neg (by simpa using same)]
    refine ⟨by simp [same], by simp, fun a mem le => ?_⟩
    rcases List.mem_append.mp mem with mem | mem
    · exact old a mem le
    · simpa using mem

/-- The files give the graph back, and the comparison depends on what is in memory behind its arrays. -/
theorem selfCheck_spec (G : CsrGraph) (nodes : G.nodes < 2 ^ 32 - 1) (edges : G.edges < 2 ^ 32 - 1) (mem : Memory)
    (m m' : Beyond) :
    ∃ c, selfCheck mem m m' (G.arrays Int32.ofNat) = some (G.arrays Int32.ofNat, c) ∧
      (c.passed = true ↔
        m.edgeArray G.edges = m'.edgeArray G.edges ∧ m.edgeValues G.edges = m'.edgeValues G.edges) ∧
      ⟨G.edges, G.edges⟩ ∈ c.accesses ∧ ∀ a ∈ c.accesses, a.length ≤ a.index → a = ⟨G.edges, G.edges⟩ := by
  obtain ⟨files, wrote, back⟩ := parseBinFiles_back mem nodes edges
  refine ⟨check (G.arrays Int32.ofNat) (G.arrays Int32.ofNat) m m', ?_, check_self (G.arrays Int32.ofNat)
    (List.length_ofFn ..) (List.length_ofFn ..) (List.length_ofFn ..)⟩
  rw [selfCheck, wrote, Option.bind_eq_bind, Option.bind_some, back]
  rfl

/-- The last round of the comparison reads the element behind the end of both arrays of the edges. -/
theorem not_checksItself (G : CsrGraph) (nodes : G.nodes < 2 ^ 32 - 1) (edges : G.edges < 2 ^ 32 - 1) (mem : Memory)
    (m m' : Beyond) : ¬ ChecksItself G mem m m' := by
  rintro ⟨c, run, _, inside⟩
  obtain ⟨c', run', _, last, _⟩ := selfCheck_spec G nodes edges mem m m'
  have same : c' = c := (Prod.mk.inj (Option.some.inj (run'.symm.trans run))).2
  exact absurd (inside _ (same ▸ last)) (Nat.lt_irrefl _)

/-- Memory of zeros. -/
def Memory.zero : Memory := ⟨fun _ => 0, fun _ => 0, fun _ => 0, fun _ => 0, fun _ => 0⟩

/-- The same word everywhere behind the arrays. -/
def Beyond.const (word : ℕ) : Beyond := ⟨fun _ => UInt64.ofNat word, fun _ => UInt64.ofNat word, fun _ => Int32.ofNat word⟩

/-- The sample. -/
theorem not_checksItself_sample : ¬ ChecksItself .sample .zero (.const 0) (.const 0) :=
  not_checksItself .sample (by decide) (by decide) .zero (.const 0) (.const 0)

/-- An assertion fails on the sample where other words are behind the arrays that were read than behind those of the
    graph. -/
theorem sample_not_checksItself : ¬ ChecksItself .sample .zero (.const 0) (.const 1) := by
  rintro ⟨c, run, passed, _⟩
  obtain ⟨c', run', same, _⟩ := selfCheck_spec .sample (by decide) (by decide) .zero (.const 0) (.const 1)
  have eq : c' = c := (Prod.mk.inj (Option.some.inj (run'.symm.trans run))).2
  exact absurd (same.mp (eq ▸ passed)).1 (by decide)

end PromotionCache.Graph.EdgelistToBinary
