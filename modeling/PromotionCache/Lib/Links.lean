import Mathlib.Data.List.Chain
import Mathlib.Data.List.Nodup
import Mathlib.Logic.Function.Basic

/-!
# Doubly linked lists

A memory of nodes with a forward and a backward link each, over an arbitrary type of node names.
`Links.Thread l ps` says that the nodes of `ps` are strung together in this order, both ways and
without repetition. The pointer operations are written as their assignments (`unlink`,
`linkBefore`, `linkAfter`), and each comes with the lemma that says what it does to the list a
thread spells: `unlink` removes the node, the other two insert it.

`walk` and `seek` are the two traversals, both with fuel, both with the lemma that says how much
fuel is enough.
-/

namespace PromotionCache.Lib

/-- The link words of every node; `none` is the null pointer. -/
structure Links (P : Type*) where
  next : P → Option P
  prev : P → Option P

namespace Links
variable {P : Type*} [DecidableEq P]

/-- Assignment to the forward link of `p`. -/
def setNext (l : Links P) (p : P) (q : Option P) : Links P :=
  { l with next := Function.update l.next p q }

/-- Assignment to the backward link of `p`. -/
def setPrev (l : Links P) (p : P) (q : Option P) : Links P :=
  { l with prev := Function.update l.prev p q }

/-- The write to a `next` pointer. -/
@[simp] lemma setNext_next (l : Links P) (p q) :
    (l.setNext p q).next = Function.update l.next p q := rfl

/-- It touches no `prev` pointer. -/
@[simp] lemma setNext_prev (l : Links P) (p q) : (l.setNext p q).prev = l.prev := rfl

/-- The write to a `prev` pointer. -/
@[simp] lemma setPrev_prev (l : Links P) (p q) :
    (l.setPrev p q).prev = Function.update l.prev p q := rfl

/-- It touches no `next` pointer. -/
@[simp] lemma setPrev_next (l : Links P) (p q) : (l.setPrev p q).next = l.next := rfl

/-- Take `c` out of the list it is in. -/
def unlink (l : Links P) (c : P) : Option (Links P) := do
  let n ← l.next c
  let p ← l.prev c
  some ((l.setNext p (some n)).setPrev n (some p))

/-- Put `c` in front of `b`. -/
def linkBefore (l : Links P) (c b : P) : Option (Links P) := do
  let l := l.setNext c (some b)
  let l := l.setPrev c (l.prev b)
  let l := l.setPrev b (some c)
  let p ← l.prev c
  some (l.setNext p (some c))

/-- Put `c` behind `a`. -/
def linkAfter (l : Links P) (c a : P) : Option (Links P) := do
  let l := l.setNext c (l.next a)
  let l := l.setPrev c (some a)
  let l := l.setNext a (some c)
  let n ← l.next c
  some (l.setPrev n (some c))

/-- The nodes before `tl`, from `p` on. -/
def walk (l : Links P) (tl : P) : Nat → P → Option (List P)
  | 0, _ => none
  | fuel + 1, p =>
    if p = tl then some []
    else do
      let n ← l.next p
      let ps ← walk l tl fuel n
      some (p :: ps)

/-- The first node from `p` on at which `stop` holds. -/
def seek (l : Links P) (stop : P → Bool) : Nat → P → Option P
  | 0, _ => none
  | fuel + 1, p =>
    if stop p then some p
    else do
      let n ← l.next p
      seek l stop fuel n

/-- `b` comes right after `a`, in both directions. -/
def Adj (l : Links P) (a b : P) : Prop :=
  l.next a = some b ∧ l.prev b = some a

/-- The nodes of `ps` are strung together in this order. -/
structure Thread (l : Links P) (ps : List P) : Prop where
  chain : ps.IsChain l.Adj
  nodup : ps.Nodup

omit [DecidableEq P] in
/-- A thread read at one seam. -/
lemma thread_seam {l : Links P} {xs ys a b} (th : l.Thread (xs ++ a :: b :: ys)) :
    (xs ++ [a]).IsChain l.Adj ∧ l.Adj a b ∧ (b :: ys).IsChain l.Adj :=
  List.isChain_append_cons_cons.mp th.chain

omit [DecidableEq P] in
/-- An assignment to links which the chain does not read keeps it. -/
private lemma chain_frame {l l' : Links P} {ps : List P} (ch : ps.IsChain l.Adj)
    (hn : ∀ a ∈ ps, ∀ b ∈ ps, l.Adj a b → l'.next a = l.next a)
    (hp : ∀ a ∈ ps, ∀ b ∈ ps, l.Adj a b → l'.prev b = l.prev b) :
    ps.IsChain l'.Adj := by
  apply ch.imp_of_mem_imp
  intro a b ha hb adj
  exact ⟨(hn a ha b hb adj).trans adj.1, (hp a ha b hb adj).trans adj.2⟩

/-- Unlinking an inner node removes it from the list. -/
lemma Thread.unlink_seam {l : Links P} {xs ys a b c} (th : l.Thread (xs ++ a :: c :: b :: ys)) :
    l.unlink c = some ((l.setNext a (some b)).setPrev b (some a)) ∧
      ((l.setNext a (some b)).setPrev b (some a)).Thread (xs ++ a :: b :: ys) := by
  obtain ⟨chl, ac, chr⟩ := thread_seam th
  obtain ⟨cb, chb⟩ := List.isChain_cons_cons.mp chr
  have nd := th.nodup
  refine ⟨?_, ?_, ?_⟩
  · simp [unlink, cb.1, ac.2]
  · apply List.isChain_append_cons_cons.mpr
    refine ⟨?_, ?_, ?_⟩
    · -- `a` is the last node here, so its forward link is not read
      apply chain_frame chl
      · intro x _ y hy adj
        have ne : x ≠ a := by
          rintro rfl
          have e : y = c := Option.some.inj (adj.1.symm.trans ac.1)
          subst e
          simp [List.nodup_append] at nd
          simp at hy
          grind
        simp [Function.update_of_ne ne]
      · intro x _ y hy _
        have ne : y ≠ b := by rintro rfl; simp [List.nodup_append] at nd; simp at hy; grind
        simp [Function.update_of_ne ne]
    · exact ⟨by simp, by simp⟩
    · apply chain_frame chb
      · intro x hx y _ _
        have ne : x ≠ a := by rintro rfl; simp [List.nodup_append] at nd; simp at hx; grind
        simp [Function.update_of_ne ne]
      · intro x hx y _ adj
        have ne : y ≠ b := by
          rintro rfl
          have e : x = c := Option.some.inj (adj.2.symm.trans cb.2)
          subst e
          simp [List.nodup_append] at nd
          simp at hx
          grind
        simp [Function.update_of_ne ne]
  · refine nd.sublist ?_
    exact (List.sublist_cons_self c (b :: ys)).cons_cons a |>.append_left xs

/-- The links after `c` was put between `a` and `b`. -/
def between (l : Links P) (a c b : P) : Links P where
  next := Function.update (Function.update l.next c (some b)) a (some c)
  prev := Function.update (Function.update l.prev c (some a)) b (some c)

/-- Linking a fresh node in between two neighbours inserts it into the list. -/
lemma Thread.between_seam {l : Links P} {xs ys a b c} (th : l.Thread (xs ++ a :: b :: ys))
    (fresh : c ∉ xs ++ a :: b :: ys) :
    (l.between a c b).Thread (xs ++ a :: c :: b :: ys) := by
  obtain ⟨chl, ab, chr⟩ := thread_seam th
  have nd := th.nodup
  simp only [List.mem_append, List.mem_cons, not_or] at fresh
  obtain ⟨cxs, ca, cb, cys⟩ := fresh
  constructor
  · apply List.isChain_append_cons_cons.mpr
    refine ⟨?_, ?_, List.isChain_cons_cons.mpr ⟨?_, ?_⟩⟩
    · apply chain_frame chl
      · intro x hx y hy adj
        have ne : x ≠ a := by
          rintro rfl
          have e : y = b := Option.some.inj (adj.1.symm.trans ab.1)
          subst e
          simp [List.nodup_append] at nd
          simp at hy
          grind
        have nec : x ≠ c := by rintro rfl; simp at hx; grind
        simp [between, Function.update_of_ne ne, Function.update_of_ne nec]
      · intro x _ y hy _
        have ne : y ≠ b := by rintro rfl; simp [List.nodup_append] at nd; simp at hy; grind
        have nec : y ≠ c := by rintro rfl; simp at hy; grind
        simp [between, Function.update_of_ne ne, Function.update_of_ne nec]
    · exact ⟨by simp [between], by simp [between, Function.update_of_ne cb]⟩
    · exact ⟨by simp [between, Function.update_of_ne ca], by simp [between]⟩
    · apply chain_frame chr
      · intro x hx y _ _
        have ne : x ≠ a := by rintro rfl; simp [List.nodup_append] at nd; simp at hx; grind
        have nec : x ≠ c := by rintro rfl; simp at hx; grind
        simp [between, Function.update_of_ne ne, Function.update_of_ne nec]
      · intro x hx y hy adj
        have ne : y ≠ b := by
          rintro rfl
          have e : x = a := Option.some.inj (adj.2.symm.trans ab.2)
          subst e
          simp [List.nodup_append] at nd
          simp at hx
          grind
        have nec : y ≠ c := by rintro rfl; simp at hy; grind
        simp [between, Function.update_of_ne ne, Function.update_of_ne nec]
  · have perm : (xs ++ a :: c :: b :: ys).Perm (c :: (xs ++ a :: b :: ys)) := by
      have h := @List.perm_middle _ c (xs ++ [a]) (b :: ys)
      simpa using h
    rw [perm.nodup_iff, List.nodup_cons]
    refine ⟨?_, nd⟩
    simp [cxs, ca, cb, cys]

/-- A node is linked between two neighbours, in front of the second. -/
lemma linkBefore_eq {l : Links P} {a b c} (ab : l.Adj a b) (cb : c ≠ b) :
    l.linkBefore c b = some (l.between a c b) := by
  have e : Function.update (Function.update l.prev c (some a)) b (some c) c = some a := by
    simp [Function.update_of_ne cb]
  simp [linkBefore, setNext, setPrev, between, ab.2, e]

/-- A node is linked between two neighbours, behind the first. -/
lemma linkAfter_eq {l : Links P} {a b c} (ab : l.Adj a b) (ca : c ≠ a) :
    l.linkAfter c a = some (l.between a c b) := by
  have e : Function.update (Function.update l.next c (some b)) a (some c) c = some b := by
    simp [Function.update_of_ne ca]
  simp [linkAfter, setNext, setPrev, between, ab.1, e]

/-- `unlink` removes an inner node. -/
lemma Thread.unlink {l : Links P} {xs ys c} (th : l.Thread (xs ++ c :: ys))
    (hx : xs ≠ []) (hy : ys ≠ []) :
    ∃ l', l.unlink c = some l' ∧ l'.Thread (xs ++ ys) := by
  obtain ⟨xs', a, rfl⟩ := List.eq_nil_or_concat'  xs |>.resolve_left hx
  obtain ⟨b, ys', rfl⟩ := List.exists_cons_of_ne_nil hy
  have th' : l.Thread (xs' ++ a :: c :: b :: ys') := by simpa using th
  exact ⟨_, th'.unlink_seam.1, by simpa using th'.unlink_seam.2⟩

/-- `linkBefore` inserts a fresh node in front of an inner one. -/
lemma Thread.linkBefore {l : Links P} {xs ys b c} (th : l.Thread (xs ++ b :: ys))
    (hx : xs ≠ []) (fresh : c ∉ xs ++ b :: ys) :
    ∃ l', l.linkBefore c b = some l' ∧ l'.Thread (xs ++ c :: b :: ys) := by
  obtain ⟨xs', a, rfl⟩ := List.eq_nil_or_concat' xs |>.resolve_left hx
  have th' : l.Thread (xs' ++ a :: b :: ys) := by simpa using th
  have fresh' : c ∉ xs' ++ a :: b :: ys := by simpa using fresh
  obtain ⟨_, ab, _⟩ := thread_seam th'
  refine ⟨_, linkBefore_eq ab ?_, by simpa using th'.between_seam fresh'⟩
  rintro rfl
  simp at fresh'

/-- `linkAfter` inserts a fresh node behind a node that is not the last. -/
lemma Thread.linkAfter {l : Links P} {xs ys a c} (th : l.Thread (xs ++ a :: ys))
    (hy : ys ≠ []) (fresh : c ∉ xs ++ a :: ys) :
    ∃ l', l.linkAfter c a = some l' ∧ l'.Thread (xs ++ a :: c :: ys) := by
  obtain ⟨b, ys', rfl⟩ := List.exists_cons_of_ne_nil hy
  obtain ⟨_, ab, _⟩ := thread_seam th
  refine ⟨_, linkAfter_eq ab ?_, th.between_seam fresh⟩
  rintro rfl
  simp at fresh

omit [DecidableEq P] in
/-- The backward link of an inner node. -/
lemma Thread.prev_eq {l : Links P} {xs ys a b} (th : l.Thread (xs ++ a :: b :: ys)) :
    l.prev b = some a :=
  (thread_seam th).2.1.2

omit [DecidableEq P] in
/-- The rest of a thread is one. -/
lemma Thread.tail {l : Links P} {a ps} (th : l.Thread (a :: ps)) : l.Thread ps :=
  ⟨th.chain.tail, (List.nodup_cons.mp th.nodup).2⟩

omit [DecidableEq P] in
/-- The forward link of the first node. -/
lemma Thread.next_head {l : Links P} {a ps} (th : l.Thread (a :: ps)) (ne : ps ≠ []) :
    l.next a = some (ps.head ne) := by
  cases ps with
  | nil => exact absurd rfl ne
  | cons b ps => exact (List.isChain_cons_cons.mp th.chain).1.1

/-- A walk with enough fuel spells the thread. -/
lemma Thread.walk {l : Links P} {tl : P} {ps : List P} (th : l.Thread (ps ++ [tl])) {fuel : Nat}
    (enough : ps.length < fuel) :
    l.walk tl fuel ((ps ++ [tl]).head (by simp)) = some ps := by
  induction ps generalizing fuel with
  | nil =>
    obtain ⟨k, rfl⟩ := Nat.exists_eq_add_of_lt enough
    simp [Links.walk]
  | cons p ps ih =>
    cases fuel with
    | zero => simp at enough
    | succ fuel =>
      have ne : p ≠ tl := by
        rintro rfl
        have nd := th.nodup
        simp at nd
      have nx : l.next p = some ((ps ++ [tl]).head (by simp)) := th.next_head (by simp)
      have ihp : l.walk tl fuel _ = some ps := ih (Thread.tail th) (by simpa using enough)
      simp [Links.walk, ne, nx, ihp]

omit [DecidableEq P] in
/-- A search with enough fuel stops at the first node that satisfies its test. -/
lemma Thread.seek {l : Links P} {stop : P → Bool} {xs ys : List P} {b : P}
    (th : l.Thread (xs ++ b :: ys)) (hx : ∀ x ∈ xs, stop x = false) (hb : stop b = true)
    {fuel : Nat} (enough : xs.length < fuel) :
    l.seek stop fuel ((xs ++ b :: ys).head (by simp)) = some b := by
  induction xs generalizing fuel with
  | nil =>
    obtain ⟨k, rfl⟩ := Nat.exists_eq_add_of_lt enough
    simp [Links.seek, hb]
  | cons x xs ih =>
    cases fuel with
    | zero => simp at enough
    | succ fuel =>
      have nx : l.next x = some ((xs ++ b :: ys).head (by simp)) := th.next_head (by simp)
      have hxs : ∀ z ∈ xs, stop z = false := fun z hz => hx z (List.mem_cons_of_mem _ hz)
      have ihx : l.seek stop fuel _ = some b := ih (Thread.tail th) hxs (by simpa using enough)
      simp [Links.seek, hx x List.mem_cons_self, nx, ihx]

end Links

end PromotionCache.Lib
