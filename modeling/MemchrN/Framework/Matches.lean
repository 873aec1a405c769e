import MemchrN.Framework.Chunks

namespace MemchrN

variable {α : Type} {n : ℕ}

/-- The positions whose element satisfies `p`. A naive scan collects them as `xs.findIdxs p`. -/
def matchSet (p : α → Bool) (xs : List α) : Set ℕ := {o | ∃ a, xs[o]? = some a ∧ p a = true}

/-- The lanes a mask selects. -/
def trueLanes (m : Vector Bool n) : Set ℕ := {i | m[i]? = some true}

variable {p : α → Bool} {xs : List α} {v : Vector α n} {o i off a : ℕ} {r : Option ℕ}

theorem mem_trueLanes {m : Vector Bool n} : i ∈ trueLanes m ↔ ∃ h : i < n, m[i] = true :=
  Vector.getElem?_eq_some_iff

theorem lt_of_mem_trueLanes {m : Vector Bool n} (h : i ∈ trueLanes m) : i < n :=
  (mem_trueLanes.mp h).1

theorem trueLanes_eq_empty {m : Vector Bool n} :
    trueLanes m = ∅ ↔ ∀ i, m.get i = false := by
  simp only [Set.eq_empty_iff_forall_notMem, mem_trueLanes, not_exists, Bool.not_eq_true]
  exact ⟨fun h i => h i i.isLt, fun h i hi => h ⟨i, hi⟩⟩

theorem mem_trueLanes_map :
    i ∈ trueLanes (v.map p) ↔ ∃ a, v[i]? = some a ∧ p a = true := by
  simp [trueLanes, Vector.getElem?_map]

theorem mem_findIdxs : o ∈ xs.findIdxs p ↔ o ∈ matchSet p xs := by
  rw [List.mem_findIdxs_iff_exists_getElem_pos]
  simp [matchSet, List.getElem?_eq_some_iff]

@[simp] theorem matchSet_nil (p : α → Bool) : matchSet p [] = ∅ := by
  ext o
  simp [matchSet]

theorem matchSet_eq_empty : matchSet p xs = ∅ ↔ ∀ a ∈ xs, p a = false := by
  simp only [Set.eq_empty_iff_forall_notMem, matchSet, Set.mem_ofPred_eq, not_exists, not_and,
    Bool.not_eq_true]
  constructor
  · intro h a ha
    obtain ⟨o, ho⟩ := List.mem_iff_getElem?.mp ha
    exact h o a ho
  · exact fun h o a ha => h a (List.mem_of_getElem? ha)

theorem clearFrom_length (p : α → Bool) (xs : List α) : ClearFrom (matchSet p xs) xs.length := by
  intro o h
  obtain ⟨a, ha, -⟩ := h
  exact (List.getElem?_eq_some_iff.mp ha).1

/-- What a scan sees of the matches when it tests one array. -/
theorem window_matchSet (h : ChunkAt xs off v) :
    window (matchSet p xs) off n = trueLanes (v.map p) := by
  ext i
  rw [mem_trueLanes]
  constructor
  · intro hs
    obtain ⟨hi, a, ha, hp⟩ := hs
    rw [h.lane i hi] at ha
    exact ⟨hi, by rw [Vector.getElem_map, Option.some.inj ha, hp]⟩
  · intro hq
    obtain ⟨hi, hp⟩ := hq
    exact ⟨hi, v[i], h.lane i hi, by rwa [Vector.getElem_map] at hp⟩

theorem matchSet_drop (p : α → Bool) (xs : List α) (a : ℕ) :
    matchSet p (xs.drop a) = window (matchSet p xs) a (xs.length - a) := by
  ext i
  simp only [matchSet, window, Set.mem_ofPred_eq, List.getElem?_drop]
  constructor
  · intro h
    obtain ⟨b, hb, hp⟩ := h
    have hlt := (List.getElem?_eq_some_iff.mp hb).1
    exact ⟨by omega, b, hb, hp⟩
  · intro h
    exact h.2

theorem matchSet_suffix (p : α → Bool) {tail xs : List α} (h : tail <:+ xs) :
    matchSet p tail = window (matchSet p xs) (xs.length - tail.length) tail.length := by
  obtain ⟨front, rfl⟩ := h
  have hdrop := matchSet_drop p (front ++ tail) front.length
  rw [List.drop_left, List.length_append, Nat.add_sub_cancel_left] at hdrop
  rwa [List.length_append, Nat.add_sub_cancel]

theorem matchSet_take (p : α → Bool) (xs : List α) (a : ℕ) :
    matchSet p (xs.take a) = window (matchSet p xs) 0 a := by
  ext i
  simp only [matchSet, window, Set.mem_ofPred_eq, Nat.zero_add]
  rcases Nat.lt_or_ge i a with hi | hi
  · simp [List.getElem?_take_of_lt hi, hi]
  · simp [Nat.not_lt.mpr hi]

/-- A scan of a suffix finds the positions from its start on, counted from there. -/
theorem findIdxs_drop (p : α → Bool) (xs : List α) (a : ℕ) :
    (xs.drop a).findIdxs p = ((xs.findIdxs p).filter (a ≤ ·)).map (· - a) := by
  refine List.Pairwise.eq_of_mem_iff (r := (· < ·)) List.pairwise_findIdxs ?_ ?_
  · rw [List.pairwise_map]
    refine (List.pairwise_findIdxs.filter _).imp_of_mem ?_
    intro o o' ho _ hlt
    have ha : a ≤ o := by simpa using (List.mem_filter.mp ho).2
    omega
  · intro i
    simp only [mem_findIdxs, matchSet_drop, List.mem_map, List.mem_filter, decide_eq_true_eq]
    constructor
    · intro h
      exact ⟨a + i, ⟨h.2, Nat.le_add_right a i⟩, Nat.add_sub_cancel_left a i⟩
    · intro h
      obtain ⟨o, ⟨ho, ha⟩, rfl⟩ := h
      have hlt := clearFrom_length p xs o ho
      exact ⟨by omega, by rwa [Nat.add_sub_cancel' ha]⟩

/-- A scan of a prefix finds the positions before its end. -/
theorem findIdxs_take (p : α → Bool) (xs : List α) (a : ℕ) :
    (xs.take a).findIdxs p = (xs.findIdxs p).filter (· < a) := by
  refine List.Pairwise.eq_of_mem_iff (r := (· < ·)) List.pairwise_findIdxs
    (List.pairwise_findIdxs.filter _) ?_
  intro i
  simp only [mem_findIdxs, matchSet_take, List.mem_filter, decide_eq_true_eq]
  rw [and_comm, window, Set.mem_ofPred_eq, Nat.zero_add]

theorem findIdxs_reverse (p : α → Bool) (xs : List α) :
    xs.reverse.findIdxs p = ((xs.findIdxs p).map (xs.length - 1 - ·)).reverse := by
  induction xs with
  | nil => rfl
  | cons a xs ih =>
    have hback : (xs.findIdxs p 1).map (xs.length - ·) =
        (xs.findIdxs p).map (xs.length - 1 - ·) := by
      rw [List.findIdxs_start, List.map_map]
      apply List.map_congr_left
      intro o _
      rw [Function.comp_apply, Nat.sub_sub, Nat.add_comm]
    rw [List.reverse_cons, List.findIdxs_append, ih, List.findIdxs_singleton, List.findIdxs_cons,
      List.length_cons, List.length_reverse, Nat.zero_add, Nat.zero_add, Nat.add_sub_cancel]
    split_ifs
    · rw [List.map_cons, hback, List.reverse_cons, Nat.sub_zero]
    · rw [hback, List.append_nil]

theorem leastIn_findIdxs (p : α → Bool) (xs : List α) :
    LeastIn (matchSet p xs) (xs.findIdxs p).head? :=
  leastIn_head List.pairwise_findIdxs fun _ => mem_findIdxs.symm

theorem greatestIn_findIdxs (p : α → Bool) (xs : List α) :
    GreatestIn (matchSet p xs) (xs.findIdxs p).getLast? :=
  greatestIn_getLast List.pairwise_findIdxs fun _ => mem_findIdxs.symm

/-- The answer of a search forwards, said of the bytes themselves. -/
theorem LeastIn.offset_iff (h : LeastIn (matchSet p xs) r) :
    (∀ o, r = some o ↔ IsLeast {o | ∃ a, xs[o]? = some a ∧ p a = true} o) ∧
      (r = none ↔ ∀ a ∈ xs, p a = false) := by
  constructor
  · intro o
    exact h.eq_some_iff
  · exact h.eq_none_iff.trans matchSet_eq_empty

theorem GreatestIn.offset_iff (h : GreatestIn (matchSet p xs) r) :
    (∀ o, r = some o ↔ IsGreatest {o | ∃ a, xs[o]? = some a ∧ p a = true} o) ∧
      (r = none ↔ ∀ a ∈ xs, p a = false) := by
  constructor
  · intro o
    exact h.eq_some_iff
  · exact h.eq_none_iff.trans matchSet_eq_empty

/-- `iter().position(..)`. -/
theorem leastIn_findIdx (p : α → Bool) (xs : List α) :
    LeastIn (matchSet p xs) (xs.findIdx? p) := by
  cases h : xs.findIdx? p with
  | none =>
    rw [List.findIdx?_eq_none_iff] at h
    ext o
    simp only [matchSet, Set.mem_ofPred_eq, Set.mem_empty_iff_false, iff_false, not_exists, not_and]
    intro a ha
    simpa using h a (List.mem_of_getElem? ha)
  | some o =>
    obtain ⟨ho, hp, hlt⟩ := List.findIdx?_eq_some_iff_getElem.mp h
    refine ⟨⟨xs[o], List.getElem?_eq_getElem ho, hp⟩, fun o' ho' => ?_⟩
    obtain ⟨a, ha, hpa⟩ := ho'
    by_contra hgt
    obtain ⟨_, rfl⟩ := List.getElem?_eq_some_iff.mp ha
    exact hlt o' (by omega) hpa

/-- A scalar probe of one element, listed with its position. -/
def probe (p : α → Bool) (item : α × ℕ) (_ : Unit) : Exec (Flow (Option ℕ) Unit) :=
  pure (if p item.1 then .ret (some item.2) else .next ())

section Probe

variable {α : Type} {p : α → Bool} {xs : List α} {i k : ℕ}

theorem mem_matchSet (hi : i < xs.length) : i ∈ matchSet p xs ↔ p xs[i] = true := by
  simp [matchSet, List.getElem?_eq_getElem hi]

theorem probe_spec_up (hi : i < xs.length) (hclear : ClearBelow (matchSet p xs) i) :
    Returns (probe p (xs[i], i) ()) (Flow.Sat (LeastIn (matchSet p xs))
      fun _ => ClearBelow (matchSet p xs) (i + 1)) := by
  rw [probe, returns_pure]
  split_ifs with h
  · exact ⟨(mem_matchSet hi).mpr h, hclear⟩
  · intro o ho
    refine lt_of_le_of_ne (hclear o ho) ?_
    intro he
    subst he
    exact h ((mem_matchSet hi).mp ho)

theorem probe_spec_down (hi : i < xs.length) (hclear : ClearFrom (matchSet p xs) (i + 1)) :
    Returns (probe p (xs[i], i) ()) (Flow.Sat (GreatestIn (matchSet p xs))
      fun _ => ClearFrom (matchSet p xs) i) := by
  rw [probe, returns_pure]
  split_ifs with h
  · exact ⟨(mem_matchSet hi).mpr h, fun o ho => Nat.le_of_lt_succ (hclear o ho)⟩
  · intro o ho
    refine lt_of_le_of_ne (Nat.le_of_lt_succ (hclear o ho)) ?_
    intro he
    subst he
    exact h ((mem_matchSet hi).mp ho)

theorem returns_probe_front (p : α → Bool) (xs : List α) (k : ℕ) :
    Returns (forEach (probe p) (xs.take k).zipIdx ()) (Flow.Sat (LeastIn (matchSet p xs))
      fun _ => ClearBelow (matchSet p xs) (min k xs.length)) := by
  rw [← List.length_take, ← List.length_zipIdx (i := 0)]
  refine returns_forEach (fun i _ => ClearBelow (matchSet p xs) i) _ clearBelow_zero
    fun i hi _ hclear => ?_
  have hlt : i < xs.length := by
    rw [List.length_zipIdx, List.length_take] at hi
    omega
  rw [List.getElem_zipIdx, List.getElem_take, Nat.zero_add]
  exact probe_spec_up hlt hclear

theorem returns_probe_back (p : α → Bool) (xs : List α) (k : ℕ) :
    Returns (forEach (probe p) (xs.zipIdx.reverse.take k) ()) (Flow.Sat
      (GreatestIn (matchSet p xs)) fun _ => ClearFrom (matchSet p xs) (xs.length - k)) := by
  have hlen : (xs.zipIdx.reverse.take k).length = min k xs.length := by simp
  have hstop : xs.length - (xs.zipIdx.reverse.take k).length = xs.length - k := by omega
  rw [← hstop]
  refine returns_forEach (fun i _ => ClearFrom (matchSet p xs) (xs.length - i)) _
    (clearFrom_length p xs) fun i hi _ hclear => ?_
  have hlt : i < xs.length := by omega
  rw [List.getElem_take, List.getElem_reverse, List.getElem_zipIdx, Nat.sub_add_eq]
  simp only [List.length_zipIdx, Nat.zero_add, Nat.sub_right_comm _ 1 i]
  refine probe_spec_down (by omega) ?_
  rwa [Nat.sub_add_cancel (by omega)]

end Probe

theorem ChunkAt.toList (h : ChunkAt xs off v) : v.toList = (xs.drop off).take n := by
  have hfit := h.fits
  apply List.ext_getElem?
  intro i
  rcases Nat.lt_or_ge i n with hi | hi
  · rw [List.getElem?_take_of_lt hi, List.getElem?_drop, h.lane i hi]
    simp [hi]
  · rw [List.getElem?_eq_none (by simpa using hi), List.getElem?_eq_none (by simp; omega)]

theorem flatten_asChunks (n : ℕ) (xs : List α) :
    ((asChunks n xs).1.map Vector.toList).flatten ++ (asChunks n xs).2 = xs := by
  have hprefix (k : ℕ) (hk : k ≤ (asChunks n xs).1.length) :
      (((asChunks n xs).1.take k).map Vector.toList).flatten = xs.take (k * n) := by
    induction k with
    | zero => simp
    | succ k ih =>
      have hchunk := (tiles_asChunks (n := n) xs k hk).toList
      rw [Nat.zero_add] at hchunk
      rw [List.take_succ_eq_append_getElem hk, List.map_append, List.flatten_append,
        ih (by omega), List.map_singleton, List.flatten_singleton, hchunk, Nat.succ_mul,
        List.take_add]
  have h := hprefix _ le_rfl
  rw [List.take_length, asChunks_length] at h
  rw [h, asChunks_rest, List.take_append_drop]

end MemchrN
