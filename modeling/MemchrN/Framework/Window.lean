import Mathlib

namespace MemchrN

/-- The answer of a search for the least member of a set, which may be empty. -/
def LeastIn (S : Set ℕ) : Option ℕ → Prop
  | some o => IsLeast S o
  | none => S = ∅

def GreatestIn (S : Set ℕ) : Option ℕ → Prop
  | some o => IsGreatest S o
  | none => S = ∅

/-- No member of `S` lies before position `a`. -/
def ClearBelow (S : Set ℕ) (a : ℕ) : Prop := ∀ o ∈ S, a ≤ o

/-- No member of `S` lies at or after position `b`. -/
def ClearFrom (S : Set ℕ) (b : ℕ) : Prop := ∀ o ∈ S, o < b

/-- The members of `S` among the `n` positions from `off` on, relative to `off`. -/
def window (S : Set ℕ) (off n : ℕ) : Set ℕ := {i | i < n ∧ off + i ∈ S}

/-- The members of `S` from position `c` on. -/
def ahead (S : Set ℕ) (c : ℕ) : Set ℕ := {o | o ∈ S ∧ c ≤ o}

variable {S : Set ℕ} {a b c off m n i : ℕ} {r r' : Option ℕ}

theorem leastIn_unique (h : LeastIn S r) (h' : LeastIn S r') : r = r' := by
  cases r with
  | none =>
    cases r' with
    | none => rfl
    | some o' => exact absurd h'.1 (by rw [show S = ∅ from h]; simp)
  | some o =>
    cases r' with
    | none => exact absurd h.1 (by rw [show S = ∅ from h']; simp)
    | some o' => exact congrArg some (IsLeast.unique h h')

theorem greatestIn_unique (h : GreatestIn S r) (h' : GreatestIn S r') : r = r' := by
  cases r with
  | none =>
    cases r' with
    | none => rfl
    | some o' => exact absurd h'.1 (by rw [show S = ∅ from h]; simp)
  | some o =>
    cases r' with
    | none => exact absurd h.1 (by rw [show S = ∅ from h']; simp)
    | some o' => exact congrArg some (IsGreatest.unique h h')

/-- The ends of a sorted list of the members of a set. -/
theorem leastIn_head {l : List ℕ} (hsorted : l.Pairwise (· < ·)) (hmem : ∀ o, o ∈ S ↔ o ∈ l) :
    LeastIn S l.head? := by
  cases l with
  | nil =>
    ext o
    simp [hmem]
  | cons first rest =>
    constructor
    · exact (hmem first).mpr List.mem_cons_self
    · intro o ho
      rcases List.mem_cons.mp ((hmem o).mp ho) with rfl | hrest
      · exact le_rfl
      · exact ((List.pairwise_cons.mp hsorted).1 o hrest).le

theorem greatestIn_getLast {l : List ℕ} (hsorted : l.Pairwise (· < ·))
    (hmem : ∀ o, o ∈ S ↔ o ∈ l) : GreatestIn S l.getLast? := by
  cases h : l.getLast? with
  | none =>
    rw [List.getLast?_eq_none_iff] at h
    ext o
    simp [hmem, h]
  | some last =>
    obtain ⟨init, h⟩ := List.getLast?_eq_some_iff.mp h
    rw [h] at hmem hsorted
    constructor
    · exact (hmem last).mpr (by simp)
    · intro o ho
      rcases List.mem_append.mp ((hmem o).mp ho) with hinit | hlast
      · exact ((List.pairwise_append.mp hsorted).2.2 o hinit last (by simp)).le
      · exact (List.mem_singleton.mp hlast).le

theorem exists_leastIn (S : Set ℕ) : ∃ r, LeastIn S r := by
  by_cases h : S.Nonempty
  · exact ⟨some (sInf S), Nat.sInf_mem h, fun _ ho => Nat.sInf_le ho⟩
  · exact ⟨none, Set.not_nonempty_iff_eq_empty.mp h⟩

theorem exists_greatestIn {S : Set ℕ} {b : ℕ} (hb : ClearFrom S b) : ∃ r, GreatestIn S r := by
  have hbound : BddAbove S := ⟨b, fun o ho => (hb o ho).le⟩
  by_cases h : S.Nonempty
  · exact ⟨some (sSup S), Nat.sSup_mem h hbound, fun _ ho => le_csSup hbound ho⟩
  · exact ⟨none, Set.not_nonempty_iff_eq_empty.mp h⟩

theorem LeastIn.eq_some_iff (h : LeastIn S r) : r = some a ↔ IsLeast S a :=
  ⟨fun hr => by rwa [hr] at h, fun ha => leastIn_unique h (show LeastIn S (some a) from ha)⟩

theorem LeastIn.eq_none_iff (h : LeastIn S r) : r = none ↔ S = ∅ :=
  ⟨fun hr => by rwa [hr] at h, fun hS => leastIn_unique h (show LeastIn S none from hS)⟩

theorem GreatestIn.eq_some_iff (h : GreatestIn S r) : r = some a ↔ IsGreatest S a :=
  ⟨fun hr => by rwa [hr] at h, fun ha => greatestIn_unique h (show GreatestIn S (some a) from ha)⟩

theorem GreatestIn.eq_none_iff (h : GreatestIn S r) : r = none ↔ S = ∅ :=
  ⟨fun hr => by rwa [hr] at h, fun hS => greatestIn_unique h (show GreatestIn S none from hS)⟩

theorem clearBelow_zero : ClearBelow S 0 := fun _ _ => Nat.zero_le _

theorem ClearBelow.mono (h : ClearBelow S b) (hab : a ≤ b) : ClearBelow S a :=
  fun o ho => hab.trans (h o ho)

theorem ClearFrom.mono (h : ClearFrom S a) (hab : a ≤ b) : ClearFrom S b :=
  fun o ho => (h o ho).trans_le hab

theorem empty_of_clear (hb : ClearBelow S a) (hf : ClearFrom S a) : S = ∅ := by
  ext o
  simp only [Set.mem_empty_iff_false, iff_false]
  intro ho
  have h1 := hb o ho
  have h2 := hf o ho
  omega

/-- Scanning upwards: the first hit of the next window is the least member. -/
theorem least_of_window (hc : ClearBelow S off) (h : IsLeast (window S off n) i) :
    IsLeast S (off + i) := by
  refine ⟨h.1.2, fun o ho => ?_⟩
  have hoff := hc o ho
  by_contra hlt
  have hi := h.1.1
  have hw : o - off ∈ window S off n := ⟨by omega, by rwa [Nat.add_sub_cancel' hoff]⟩
  have hle := h.2 hw
  omega

theorem clearBelow_of_window (hc : ClearBelow S off) (h : window S off n = ∅) :
    ClearBelow S (off + n) := by
  intro o ho
  have hoff := hc o ho
  by_contra hlt
  have hw : o - off ∈ window S off n := ⟨by omega, by rwa [Nat.add_sub_cancel' hoff]⟩
  rw [h] at hw
  exact hw

/-- Scanning downwards: the last hit of the next window is the greatest member. -/
theorem greatest_of_window (hc : ClearFrom S (off + n)) (h : IsGreatest (window S off n) i) :
    IsGreatest S (off + i) := by
  refine ⟨h.1.2, fun o ho => ?_⟩
  have hend := hc o ho
  rcases Nat.lt_or_ge o off with hlt | hge
  · omega
  · have hw : o - off ∈ window S off n := ⟨by omega, by rwa [Nat.add_sub_cancel' hge]⟩
    have hle := h.2 hw
    omega

theorem clearFrom_of_window (hc : ClearFrom S (off + n)) (h : window S off n = ∅) :
    ClearFrom S off := by
  intro o ho
  have hend := hc o ho
  by_contra hge
  have hw : o - off ∈ window S off n := ⟨by omega, by rwa [Nat.add_sub_cancel' (by omega)]⟩
  rw [h] at hw
  exact hw

theorem window_subset : ∀ i ∈ window S off n, i < n := fun _ h => h.1

/-- Two neighbouring windows, the second one shifted up. -/
theorem window_add :
    window S off (m + n) = window S off m ∪ (· + m) '' window S (off + m) n := by
  ext i
  simp only [window, Set.mem_union, Set.mem_image, Set.mem_ofPred_eq]
  constructor
  · intro hs
    obtain ⟨hi, hS⟩ := hs
    rcases Nat.lt_or_ge i m with h | h
    · exact .inl ⟨h, hS⟩
    · refine .inr ⟨i - m, ⟨by omega, ?_⟩, by omega⟩
      rwa [show off + m + (i - m) = off + i by omega]
  · intro hq
    rcases hq with ⟨hi, hS⟩ | ⟨j, ⟨hj, hS⟩, rfl⟩
    · exact ⟨by omega, hS⟩
    · exact ⟨by omega, by rwa [show off + (j + m) = off + m + j by omega]⟩

theorem clearBelow_ahead : ClearBelow (ahead S c) c := fun _ h => h.2

theorem window_ahead (h : c ≤ off) : window (ahead S c) off n = window S off n := by
  ext i
  exact and_congr_right fun _ => and_iff_left (by omega)

/-- Scanning on from `c`: a window without a hit is passed over. -/
theorem clearBelow_ahead_of_window (hc : ClearBelow (ahead S c) off) (hle : c ≤ off)
    (h : window S off n = ∅) : ClearBelow (ahead S c) (off + n) :=
  clearBelow_of_window hc (by rwa [window_ahead hle])

theorem window_add_eq_empty :
    window S off (m + n) = ∅ ↔ window S off m = ∅ ∧ window S (off + m) n = ∅ := by
  rw [window_add, Set.union_empty_iff, Set.image_eq_empty]

theorem window_zero_of_clear (h : ClearFrom S n) : window S 0 n = S := by
  ext o
  simp only [window, Nat.zero_add, Set.mem_ofPred_eq, and_iff_right_iff_imp]
  exact h o

/-- The last window of an upward scan decides the search. -/
theorem leastIn_of_window (hc : ClearBelow S off) (hf : ClearFrom S (off + n))
    (h : LeastIn (window S off n) r) : LeastIn S (r.map (off + ·)) := by
  cases r with
  | none => exact empty_of_clear (clearBelow_of_window hc h) hf
  | some i => exact least_of_window hc h

/-- The first window of a downward scan, which may reach past what is still unscanned. -/
theorem greatestIn_of_front (hf : ClearFrom S n) (h : GreatestIn (window S 0 n) r) :
    GreatestIn S r := by
  rwa [window_zero_of_clear hf] at h

end MemchrN
