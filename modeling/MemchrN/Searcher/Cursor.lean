import MemchrN.Framework.ByteLanes
import MemchrN.Framework.Matches
import MemchrN.Framework.Simulation

namespace MemchrN

/-- The positions of a list from `c` on. -/
def fromPos (l : List ℕ) (c : ℕ) : List ℕ := l.filter (c ≤ ·)

/-- What a caller may do with an iterator. -/
inductive Operation
  | next
  | nth (n : ℕ)
  | advanceTo (idx : ℕ)
  deriving DecidableEq, Repr

/-- The answer to an operation; advancing answers nothing. -/
abbrev Answer := Option (Option ℕ)

/-- The abstract iterator: the matches still to come, in order. -/
def Operation.onStream (l : List ℕ) : Operation → Answer × List ℕ
  | next => (some l.head?, l.tail)
  | nth n => (some l[n]?, l.drop (n + 1))
  | advanceTo idx => (none, fromPos l idx)

section Scalar

variable (p : U8 → Bool) (haystack : List U8)

/-- The first match at or after the cursor, and the cursor just past it. -/
def scalarNext (cursor : ℕ) : Option ℕ × ℕ :=
  match (haystack.zipIdx.drop cursor).find? fun it => p it.1 with
  | some (_, offset) => (some offset, offset + 1)
  | none => (none, haystack.length)

/-- `for _ in 0..=n`, stopping at the first `None`. -/
def scalarNth : ℕ → ℕ → Option ℕ × ℕ
  | 0, cursor => scalarNext p haystack cursor
  | n + 1, cursor =>
    match scalarNext p haystack cursor with
    | (some _, cursor) => scalarNth n cursor
    | (none, cursor) => (none, cursor)

def Operation.onCursor (cursor : ℕ) : Operation → Answer × ℕ
  | next => let (item, cursor) := scalarNext p haystack cursor; (some item, cursor)
  | nth n => let (item, cursor) := scalarNth p haystack n cursor; (some item, cursor)
  | advanceTo idx => (none, max cursor idx)

end Scalar

section Positions

variable {l : List ℕ} {a b c o : ℕ}

@[simp] theorem mem_fromPos : o ∈ fromPos l c ↔ o ∈ l ∧ c ≤ o := by simp [fromPos]

theorem fromPos_sublist (l : List ℕ) (c : ℕ) : (fromPos l c).Sublist l := List.filter_sublist

theorem fromPos_zero (l : List ℕ) : fromPos l 0 = l := by simp [fromPos]

theorem fromPos_fromPos : fromPos (fromPos l a) b = fromPos l (max a b) := by
  simp only [fromPos, List.filter_filter]
  apply List.filter_congr
  intro o _
  rw [Bool.eq_iff_iff]
  simp
  omega

theorem fromPos_eq_nil (h : ∀ o ∈ l, o < c) : fromPos l c = [] := by
  rw [List.eq_nil_iff_forall_not_mem]
  intro o ho
  rw [mem_fromPos] at ho
  have := h o ho.1
  omega

/-- Behind the first position from `c` on lie the positions past it. -/
theorem fromPos_cons {rest : List ℕ} (hl : l.Pairwise (· < ·)) (h : fromPos l c = o :: rest) :
    fromPos l (o + 1) = rest := by
  have hsorted := hl.sublist (fromPos_sublist l c)
  have ho : c ≤ o := (mem_fromPos.mp (h ▸ List.mem_cons_self)).2
  have hrest : fromPos (fromPos l c) (o + 1) = rest := by
    rw [h, fromPos, List.filter_cons_of_neg (by simp)]
    rw [h, List.pairwise_cons] at hsorted
    exact List.filter_eq_self.mpr fun x hx => by simpa using hsorted.1 x hx
  rwa [fromPos_fromPos, max_eq_right (by omega)] at hrest

theorem fromPos_eq_cons (hl : l.Pairwise (· < ·)) (ho : o ∈ l) (hc : c ≤ o)
    (hleast : ∀ x ∈ l, c ≤ x → o ≤ x) : fromPos l c = o :: fromPos l (o + 1) := by
  have hmem : o ∈ fromPos l c := mem_fromPos.mpr ⟨ho, hc⟩
  cases hcs : fromPos l c with
  | nil => simp [hcs] at hmem
  | cons x rest =>
    have hsorted := hl.sublist (fromPos_sublist l c)
    have hx := mem_fromPos.mp (hcs ▸ List.mem_cons_self : x ∈ fromPos l c)
    rw [hcs, List.pairwise_cons] at hsorted
    rw [hcs, List.mem_cons] at hmem
    have hxo : o = x := by
      rcases hmem with rfl | hmem
      · rfl
      · have h1 := hsorted.1 o hmem
        have h2 := hleast x hx.1 hx.2
        omega
    subst hxo
    rw [fromPos_cons hl hcs]

end Positions

section Scalar

variable (p : U8 → Bool) (haystack : List U8)

theorem mem_zipIdx_drop {b : U8} {c o : ℕ} (hc : c ≤ o) (hb : haystack[o]? = some b) :
    (haystack.zipIdx.drop c)[o - c]? = some (b, o) := by
  rw [List.getElem?_drop, Nat.add_sub_cancel' hc, List.getElem?_zipIdx, hb]
  simp

/-- Counting from a position on counts the matches there. -/
theorem length_fromPos_findIdxs {c : ℕ} (hc : c ≤ haystack.length) :
    (fromPos (haystack.findIdxs p) c).length = (haystack.drop c).countP p := by
  have hsplit : haystack.findIdxs p =
      (haystack.take c).findIdxs p ++ (haystack.drop c).findIdxs p c := by
    have h : c = 0 + (haystack.take c).length := by
      rw [List.length_take, min_eq_left hc, Nat.zero_add]
    nth_rewrite 3 [h]
    rw [← List.findIdxs_append, List.take_append_drop]
  have hfront : fromPos ((haystack.take c).findIdxs p) c = [] := fromPos_eq_nil fun o ho => by
    have h := clearFrom_length p _ o (mem_findIdxs.mp ho)
    rw [List.length_take] at h
    omega
  have hback : fromPos ((haystack.drop c).findIdxs p c) c = (haystack.drop c).findIdxs p c :=
    List.filter_eq_self.mpr fun o ho => decide_eq_true (List.ge_of_mem_findIdxs o ho)
  rw [hsplit, fromPos, List.filter_append]
  show (fromPos _ c ++ fromPos _ c).length = _
  rw [hfront, hback, List.nil_append, List.length_findIdxs]

/-- The scalar scan pops the matches from the cursor on. -/
theorem scalarNext_spec (c : ℕ) :
    (scalarNext p haystack c).1 = (fromPos (haystack.findIdxs p) c).head? ∧
      fromPos (haystack.findIdxs p) (scalarNext p haystack c).2 =
        (fromPos (haystack.findIdxs p) c).tail := by
  have hsorted : (haystack.findIdxs p).Pairwise (· < ·) := List.pairwise_findIdxs
  rw [scalarNext]
  cases hfind : (haystack.zipIdx.drop c).find? fun it => p it.1 with
  | none =>
    rw [List.find?_eq_none] at hfind
    have hnil : fromPos (haystack.findIdxs p) c = [] := by
      apply List.eq_nil_iff_forall_not_mem.mpr
      intro o ho
      obtain ⟨⟨b, hb, hp⟩, hc⟩ := mem_fromPos.mp ho |>.imp_left mem_findIdxs.mp
      exact hfind _ (List.mem_of_getElem? (mem_zipIdx_drop haystack hc hb)) hp
    refine ⟨by rw [hnil]; rfl, ?_⟩
    rw [hnil, List.tail_nil]
    exact fromPos_eq_nil fun o ho => clearFrom_length p haystack o (mem_findIdxs.mp ho)
  | some it =>
    obtain ⟨b, o⟩ := it
    obtain ⟨hp, i, hi, hit, hbefore⟩ := List.find?_eq_some_iff_getElem.mp hfind
    have hpos : haystack[c + i]? = some b ∧ o = c + i := by
      have h := (List.getElem?_eq_getElem hi).trans (congrArg some hit)
      rw [List.getElem?_drop, List.getElem?_zipIdx] at h
      simp only [Nat.zero_add, Option.map_eq_some_iff, Prod.mk.injEq] at h
      obtain ⟨_, hb, rfl, rfl⟩ := h
      exact ⟨hb, rfl⟩
    obtain ⟨hb, rfl⟩ := hpos
    have hleast : ∀ x ∈ haystack.findIdxs p, c ≤ x → c + i ≤ x := by
      intro x hx hc
      by_contra hlt
      obtain ⟨b', hb', hp'⟩ := mem_findIdxs.mp hx
      obtain ⟨_, hx⟩ := List.getElem?_eq_some_iff.mp (mem_zipIdx_drop haystack hc hb')
      have h := hbefore (x - c) (by omega)
      rw [hx] at h
      simp [hp'] at h
    rw [fromPos_eq_cons hsorted (mem_findIdxs.mpr ⟨b, hb, hp⟩) (Nat.le_add_right c i) hleast]
    exact ⟨rfl, rfl⟩

theorem scalarNth_spec (n c : ℕ) :
    (scalarNth p haystack n c).1 = (fromPos (haystack.findIdxs p) c)[n]? ∧
      fromPos (haystack.findIdxs p) (scalarNth p haystack n c).2 =
        (fromPos (haystack.findIdxs p) c).drop (n + 1) := by
  induction n generalizing c with
  | zero =>
    obtain ⟨hitem, hrest⟩ := scalarNext_spec p haystack c
    exact ⟨by rw [scalarNth, hitem, List.head?_eq_getElem?], by rw [scalarNth, hrest, List.drop_one]⟩
  | succ n ih =>
    obtain ⟨hitem, hrest⟩ := scalarNext_spec p haystack c
    rw [scalarNth]
    rcases hnext : scalarNext p haystack c with ⟨_ | o, c'⟩
    · rw [hnext] at hitem hrest
      have hnil := List.head?_eq_none_iff.mp hitem.symm
      simp only [hnil, List.tail_nil] at hrest ⊢
      exact ⟨by simp, by simpa using hrest⟩
    · rw [hnext] at hrest
      obtain ⟨hnth, hdrop⟩ := ih c'
      simp only at hrest ⊢
      rw [hnth, hdrop, hrest, List.getElem?_tail, List.drop_tail]
      exact ⟨rfl, rfl⟩

/-- The scalar cursor is the stream of the matches from it on. -/
theorem onCursor_spec (c : ℕ) (op : Operation) :
    (op.onCursor p haystack c).1 = (op.onStream (fromPos (haystack.findIdxs p) c)).1 ∧
      fromPos (haystack.findIdxs p) (op.onCursor p haystack c).2 =
        (op.onStream (fromPos (haystack.findIdxs p) c)).2 := by
  cases op with
  | next =>
    obtain ⟨hitem, hrest⟩ := scalarNext_spec p haystack c
    exact ⟨congrArg some hitem, hrest⟩
  | nth n =>
    obtain ⟨hitem, hrest⟩ := scalarNth_spec p haystack n c
    exact ⟨congrArg some hitem, hrest⟩
  | advanceTo idx => exact ⟨rfl, fromPos_fromPos.symm⟩

end Scalar

section Stream

/-- The items among the answers. -/
def items (answers : List Answer) : List ℕ := answers.filterMap Option.join

/-- What one operation yields and what it leaves were there before, in this order. -/
theorem onStream_sublist (l : List ℕ) (op : Operation) :
    ((op.onStream l).1.join.toList ++ (op.onStream l).2).Sublist l := by
  cases op with
  | next => cases l <;> simp [Operation.onStream]
  | nth n =>
    have h : (l[n]?.toList ++ l.drop (n + 1)) = l.drop n := by
      rcases Nat.lt_or_ge n l.length with hn | hn
      · rw [List.getElem?_eq_getElem hn, Option.toList_some, List.singleton_append,
          List.getElem_cons_drop]
      · rw [List.getElem?_eq_none hn, List.drop_eq_nil_of_le hn, List.drop_eq_nil_of_le (by omega)]
        rfl
    simpa [Operation.onStream, h] using List.drop_sublist n l
  | advanceTo idx => simpa [Operation.onStream] using fromPos_sublist l idx

/-- Whatever the operations, what is yielded and what is left were there before, in this order. -/
theorem items_append_sublist (ops : List Operation) (l : List ℕ) :
    (items (specAll (fun l op => op.onStream l) ops l).1 ++
      (specAll (fun l op => op.onStream l) ops l).2).Sublist l := by
  induction ops generalizing l with
  | nil => exact List.Sublist.refl l
  | cons op ops ih =>
    have hrest := (List.Sublist.refl (op.onStream l).1.join.toList).append (ih (op.onStream l).2)
    refine List.Sublist.trans ?_ (hrest.trans (onStream_sublist l op))
    rw [specAll, items, List.filterMap_cons]
    cases (op.onStream l).1.join <;> simp [items]

/-- No item is repeated, invented or out of order. -/
theorem items_sublist (ops : List Operation) (l : List ℕ) :
    (items (specAll (fun l op => op.onStream l) ops l).1).Sublist l :=
  (List.sublist_append_left _ _).trans (items_append_sublist ops l)

/-- An exhausted stream yields nothing more. -/
theorem onStream_nil (op : Operation) : (op.onStream []).1.join = none ∧ (op.onStream []).2 = [] := by
  cases op <;> simp [Operation.onStream, fromPos]

theorem specAll_stream_nil (ops : List Operation) :
    ∀ answer ∈ (specAll (fun l op => Operation.onStream l op) ops []).1, answer.join = none := by
  induction ops with
  | nil => simp [specAll]
  | cons op ops ih =>
    obtain ⟨hnone, hnil⟩ := onStream_nil op
    rw [specAll, List.forall_mem_cons, hnil]
    exact ⟨hnone, ih⟩

/-- Once the answer is `None`, so is every later one. -/
theorem none_is_final (ops : List Operation) (l : List ℕ) :
    (specAll (fun l op => Operation.onStream l op) ops l).1.Pairwise fun earlier later =>
      earlier = some none → later.join = none := by
  induction ops generalizing l with
  | nil => exact List.Pairwise.nil
  | cons op ops ih =>
    rw [specAll, List.pairwise_cons]
    refine ⟨fun later hlater hnone => ?_, ih _⟩
    have hempty : (op.onStream l).2 = [] := by
      cases op with
      | next =>
        have h : l.head? = none := by simpa [Operation.onStream] using hnone
        rw [Operation.onStream, List.head?_eq_none_iff.mp h]
        rfl
      | nth n =>
        have h : l[n]? = none := Option.some.inj hnone
        exact List.drop_eq_nil_of_le ((List.getElem?_eq_none_iff.mp h).trans (Nat.le_succ n))
      | advanceTo idx => simp [Operation.onStream] at hnone
    rw [hempty] at hlater
    exact specAll_stream_nil ops later hlater

end Stream

end MemchrN
