import MemchrN.Bitset.ByteSet

namespace MemchrN.ByteSet

variable (set other : ByteSet) (byte b : U8)

theorem getLsbD_mask (k j : ℕ) (hj : j < 8) : (1#8 <<< k).getLsbD j = decide (j = k) := by
  rw [BitVec.getLsbD_shiftLeft, BitVec.getLsbD_one]
  simp only [hj, decide_true, Bool.true_and]
  grind

/-- Two tables agree when they hold the same members. -/
theorem ext_of_contains (h : ∀ b, set.contains b = other.contains b) : set = other := by
  ext i hi j hj
  have hb := h (BitVec.ofNat 8 (i * 8 + j))
  have hlt : i * 8 + j < 256 := by omega
  rw [← bit_eq_contains _ _ hlt, ← bit_eq_contains _ _ hlt, bit_of_lt _ hlt, bit_of_lt _ hlt] at hb
  simpa only [show (i * 8 + j) / 8 = i by omega, show (i * 8 + j) % 8 = j by omega,
    BitVec.getLsbD_eq_getElem hj] using hb

theorem bit_add (n : ℕ) (hn : n < 256) :
    (set.add byte).bit n = (decide (n = byte.toNat) || set.bit n) := by
  have hb := byte.isLt
  rw [bit_of_lt _ hn, bit_of_lt _ hn]
  simp only [add, Vector.getElem_set, toNat_div_eight, toNat_mod_eight]
  split_ifs with hi
  · simp only [BitVec.getLsbD_or, getLsbD_mask _ _ (show n % 8 < 8 by omega), hi]
    rw [Bool.or_comm]
    congr 1
    exact decide_eq_decide.mpr (by omega)
  · have hne : n ≠ byte.toNat := by rintro rfl; exact hi rfl
    simp [hne]

theorem bit_remove (n : ℕ) (hn : n < 256) :
    (set.remove byte).bit n = (decide (n ≠ byte.toNat) && set.bit n) := by
  have hb := byte.isLt
  rw [bit_of_lt _ hn, bit_of_lt _ hn]
  simp only [remove, Vector.getElem_set, toNat_div_eight, toNat_mod_eight]
  split_ifs with hi
  · simp only [BitVec.getLsbD_and, BitVec.getLsbD_not, show n % 8 < 8 by omega, decide_true,
      Bool.true_and, getLsbD_mask _ _ (show n % 8 < 8 by omega), hi]
    rw [Bool.and_comm, ← decide_not]
    congr 1
    exact decide_eq_decide.mpr (by omega)
  · have hne : n ≠ byte.toNat := by rintro rfl; exact hi rfl
    simp [hne]

@[simp] theorem contains_new : new.contains b = false := by
  rw [contains_eq_bit, bit_of_lt _ b.isLt]
  simp [new]

@[simp] theorem contains_full : full.contains b = true := by
  have hmod : b.toNat % 8 < 8 := Nat.mod_lt _ (by decide)
  rw [contains_eq_bit, bit_of_lt _ b.isLt]
  simp only [full, Vector.getElem_replicate]
  generalize b.toNat % 8 = k at hmod
  interval_cases k <;> rfl

@[simp] theorem contains_add : (set.add byte).contains b = (b == byte || set.contains b) := by
  rw [contains_eq_bit, contains_eq_bit, bit_add _ _ _ b.isLt]
  congr 1
  rw [Bool.eq_iff_iff, decide_eq_true_eq, beq_iff_eq, BitVec.toNat_inj]

@[simp] theorem contains_remove :
    (set.remove byte).contains b = (b != byte && set.contains b) := by
  rw [contains_eq_bit, contains_eq_bit, bit_remove _ _ _ b.isLt]
  congr 1
  rw [Bool.eq_iff_iff, decide_eq_true_eq, bne_iff_ne, ne_eq, ne_eq, BitVec.toNat_inj]

@[simp] theorem contains_addAll (bytes : List U8) :
    (set.addAll bytes).contains b = (decide (b ∈ bytes) || set.contains b) := by
  induction bytes generalizing set with
  | nil => simp [addAll]
  | cons a bytes ih =>
    have h := ih (set.add a)
    rw [addAll, List.foldl_cons, ← addAll, h, contains_add]
    by_cases hba : b = a
    · simp [hba]
    · simp [hba, beq_eq_false_iff_ne.mpr hba]

theorem contains_extend (items : List U8) :
    (set.extend items).contains b = (decide (b ∈ items) || set.contains b) :=
  contains_addAll set b items

@[simp] theorem contains_fromBytes (bytes : List U8) :
    (fromBytes bytes).contains b = decide (b ∈ bytes) := by simp [fromBytes]

@[simp] theorem contains_fromIter (items : List U8) :
    (fromIter items).contains b = decide (b ∈ items) := by simp [fromIter, contains_extend]

@[simp] theorem contains_invert : set.invert.contains b = !set.contains b := by
  rw [contains_eq_bit, contains_eq_bit, bit_of_lt _ b.isLt, bit_of_lt _ b.isLt]
  simp [invert, Nat.mod_lt]

@[simp] theorem contains_union :
    (set.union other).contains b = (set.contains b || other.contains b) := by
  simp only [contains_eq_bit, bit_of_lt _ b.isLt]
  simp [union]

@[simp] theorem contains_intersection :
    (set.intersection other).contains b = (set.contains b && other.contains b) := by
  simp only [contains_eq_bit, bit_of_lt _ b.isLt]
  simp [intersection]

@[simp] theorem contains_difference :
    (set.difference other).contains b = (set.contains b && !other.contains b) := by
  simp only [contains_eq_bit, bit_of_lt _ b.isLt]
  simp [difference, Nat.mod_lt]

@[simp] theorem contains_symmetricDifference :
    (set.symmetricDifference other).contains b = (set.contains b ^^ other.contains b) := by
  simp only [contains_eq_bit, bit_of_lt _ b.isLt]
  simp [symmetricDifference]

@[simp] theorem contains_not : (~~~set).contains b = !set.contains b := contains_invert set b

@[simp] theorem contains_or : (set ||| other).contains b = (set.contains b || other.contains b) :=
  contains_union set other b

@[simp] theorem contains_and : (set &&& other).contains b = (set.contains b && other.contains b) :=
  contains_intersection set other b

@[simp] theorem contains_sub : (set - other).contains b = (set.contains b && !other.contains b) :=
  contains_difference set other b

@[simp] theorem contains_xor : (set ^^^ other).contains b = (set.contains b ^^ other.contains b) :=
  contains_symmetricDifference set other b

/-- The filling loop overwrites exactly its `count` table bytes. -/
theorem getElem_fillTable (table : Vector U8 32) (i count j : ℕ) (h : i + count ≤ 32)
    (hj : j < 32) :
    (fillTable table i count h)[j] = if i ≤ j ∧ j < i + count then 0xFF#8 else table[j] := by
  induction count generalizing table i with
  | zero => simp [fillTable, show ¬(i ≤ j ∧ j < i) by omega]
  | succ count ih =>
    rw [fillTable, ih, Vector.getElem_set]
    split_ifs <;> first | rfl | omega

theorem getLsbD_ones (m : ℕ) : (0xFF#8).getLsbD m = decide (m < 8) := by
  rw [show 0xFF#8 = BitVec.allOnes 8 by rfl, BitVec.getLsbD_allOnes]

theorem getLsbD_fromStart (k j : ℕ) (hj : j < 8) :
    (0xFF#8 <<< k).getLsbD j = decide (k ≤ j) := by
  rw [BitVec.getLsbD_shiftLeft, getLsbD_ones]
  simp only [hj, decide_true, Bool.true_and]
  grind

theorem getLsbD_throughLast (last : U8) (j : ℕ) :
    (0xFF#8 >>> (7 - last % 8).toNat).getLsbD j = decide (j ≤ last.toNat % 8) := by
  have hmod := toNat_mod_eight last
  have hle : last % 8 ≤ 7 := BitVec.le_def.mpr (by rw [hmod]; simp; omega)
  rw [BitVec.getLsbD_ushiftRight, getLsbD_ones, BitVec.toNat_sub_of_le hle, hmod]
  exact decide_eq_decide.mpr (by simp; omega)

theorem bit_addByteRange (range : ByteRange) (h : range.start ≤ range.last) (n : ℕ)
    (hn : n < 256) :
    (set.addByteRange range).bit n =
      (decide (range.start.toNat ≤ n ∧ n ≤ range.last.toNat) || set.bit n) := by
  have hs := range.start.isLt
  have hl := range.last.isLt
  have hle := BitVec.le_def.mp h
  have hj : n % 8 < 8 := Nat.mod_lt _ (by decide)
  rw [bit_of_lt _ hn, bit_of_lt _ hn]
  simp only [addByteRange, gt_iff_lt, BitVec.not_lt.mpr h, if_false, toNat_div_eight]
  split_ifs with hsame
  · simp only [Vector.getElem_set]
    split_ifs with hi
    · -- one table byte holds both ends
      simp only [BitVec.getLsbD_or, BitVec.getLsbD_and, toNat_mod_eight,
        getLsbD_fromStart _ _ hj, getLsbD_throughLast, hi]
      rw [Bool.or_comm, ← Bool.decide_and]
      congr 1
      exact decide_eq_decide.mpr (by omega)
    · have hout : ¬(range.start.toNat ≤ n ∧ n ≤ range.last.toNat) := by omega
      simp [hout]
  · simp only [Vector.getElem_set, getElem_fillTable]
    have hlast : ¬range.last.toNat / 8 = range.start.toNat / 8 := fun h => hsame h.symm
    by_cases hi : range.last.toNat / 8 = n / 8
    · have hmid : ¬(range.start.toNat / 8 + 1 ≤ range.last.toNat / 8 ∧ range.last.toNat / 8 <
          range.start.toNat / 8 + 1 + (range.last.toNat / 8 - (range.start.toNat / 8 + 1))) := by
        omega
      rw [if_pos hi, if_neg hmid, if_neg hsame, BitVec.getLsbD_or, getLsbD_throughLast]
      simp only [hi]
      rw [Bool.or_comm]
      congr 1
      exact decide_eq_decide.mpr (by omega)
    · rw [if_neg hi]
      by_cases hmid : range.start.toNat / 8 + 1 ≤ n / 8 ∧ n / 8 <
          range.start.toNat / 8 + 1 + (range.last.toNat / 8 - (range.start.toNat / 8 + 1))
      · have hin : range.start.toNat ≤ n ∧ n ≤ range.last.toNat := by omega
        rw [if_pos hmid, getLsbD_ones]
        simp [hin, hj]
      · rw [if_neg hmid]
        by_cases hfirst : range.start.toNat / 8 = n / 8
        · rw [if_pos hfirst, BitVec.getLsbD_or, toNat_mod_eight, getLsbD_fromStart _ _ hj]
          simp only [hfirst]
          rw [Bool.or_comm]
          congr 1
          exact decide_eq_decide.mpr (by omega)
        · have hout : ¬(range.start.toNat ≤ n ∧ n ≤ range.last.toNat) := by omega
          rw [if_neg hfirst]
          simp [hout]

@[simp] theorem contains_addByteRange (range : ByteRange) :
    (set.addByteRange range).contains b =
      (decide (range.start ≤ b ∧ b ≤ range.last) || set.contains b) := by
  by_cases h : range.start ≤ range.last
  · rw [contains_eq_bit, contains_eq_bit, bit_addByteRange set range h _ b.isLt]
    rfl
  · have hout : ¬(range.start ≤ b ∧ b ≤ range.last) := fun hb => h (BitVec.le_trans hb.1 hb.2)
    simp [addByteRange, BitVec.not_le.mp h, hout]

end MemchrN.ByteSet
