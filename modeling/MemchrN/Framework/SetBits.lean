import MemchrN.Framework.Exec

namespace MemchrN

variable {w : ℕ} {x : BitVec w}

/-- Trailing and leading zeros and the population count, as the machine counts them. -/
def trailingZeros (x : BitVec w) : ℕ := x.ctz.toNat

def leadingZeros (x : BitVec w) : ℕ := x.clz.toNat

def countOnes (x : BitVec w) : ℕ := x.cpop.toNat

/-- `x & (x - 1)`. -/
def clearLowest (x : BitVec w) : BitVec w := x &&& (x - 1)

/-- The positions of the set bits of a word, as a set and in ascending order. -/
def bitSet (x : BitVec w) : Set ℕ := {k | x.getLsbD k = true}

def setBits (x : BitVec w) : List ℕ := (List.range w).filter x.getLsbD

@[simp] theorem mem_bitSet {k : ℕ} : k ∈ bitSet x ↔ x.getLsbD k = true := Iff.rfl

@[simp] theorem mem_setBits {k : ℕ} : k ∈ setBits x ↔ x.getLsbD k = true := by
  simp only [setBits, List.mem_filter, List.mem_range, and_iff_right_iff_imp]
  exact BitVec.lt_of_getLsbD

theorem setBits_sorted (x : BitVec w) : (setBits x).Pairwise (· < ·) :=
  List.Pairwise.filter _ List.pairwise_lt_range

theorem setBits_length_le (x : BitVec w) : (setBits x).length ≤ w := by
  simpa [setBits] using List.length_filter_le x.getLsbD (List.range w)

theorem setBits_eq_nil : setBits x = [] ↔ x = 0#w := by
  rw [List.eq_nil_iff_forall_not_mem, BitVec.zero_iff_eq_false]
  simp

@[simp] theorem setBits_zero : setBits (0#w) = [] := setBits_eq_nil.mpr rfl

theorem bitSet_eq_empty : bitSet x = ∅ ↔ x = 0#w := by
  rw [Set.eq_empty_iff_forall_notMem, BitVec.zero_iff_eq_false]
  simp

theorem isLeast_trailingZeros (hx : x ≠ 0#w) : IsLeast (bitSet x) (trailingZeros x) := by
  refine ⟨BitVec.getLsbD_true_ctz_of_ne_zero hx, fun k hk => ?_⟩
  by_contra hlt
  have hf := BitVec.getLsbD_false_of_lt_ctz (x := x) (i := k) (by simpa [trailingZeros] using hlt)
  rw [mem_bitSet, hf] at hk
  exact absurd hk (by decide)

theorem trailingZeros_lt (hx : x ≠ 0#w) : trailingZeros x < w :=
  BitVec.lt_of_getLsbD (isLeast_trailingZeros hx).1

theorem leadingZeros_lt (hx : x ≠ 0#w) : leadingZeros x < w := by
  have h := BitVec.lt_def.mp (BitVec.clz_lt_iff_ne_zero.mpr hx)
  simpa [leadingZeros] using h

theorem isGreatest_leadingZeros (hx : x ≠ 0#w) :
    IsGreatest (bitSet x) (w - 1 - leadingZeros x) := by
  have hw : 0 < w := by
    rcases Nat.eq_zero_or_pos w with rfl | h
    · exact absurd (BitVec.of_length_zero) hx
    · exact h
  refine ⟨BitVec.getLsbD_true_clz_of_ne_zero hw hx, fun k hk => ?_⟩
  have hlow : 2 ^ k ≤ x.toNat := Nat.ge_two_pow_of_testBit hk
  have hhigh := BitVec.toNat_lt_two_pow_sub_clz (x := x)
  have hlt : k < w - leadingZeros x :=
    (Nat.pow_lt_pow_iff_right (by decide)).mp (hlow.trans_lt hhigh)
  omega

theorem countOnes_eq_length (x : BitVec w) : countOnes x = (setBits x).length := by
  have hcount (n : ℕ) : x.cpopNatRec n 0 = ((List.range n).filter x.getLsbD).length := by
    induction n with
    | zero => rfl
    | succ n ih =>
      rw [BitVec.cpopNatRec_succ, BitVec.cpopNatRec_eq, ih, List.range_succ, List.filter_append]
      cases h : x.getLsbD n <;> simp [h]
  have hle := setBits_length_le x
  rw [countOnes, BitVec.cpop, BitVec.toNat_ofNat, hcount w]
  exact Nat.mod_eq_of_lt (hle.trans_lt Nat.lt_two_pow_self)

theorem countOnes_eq_zero : countOnes x = 0 ↔ x = 0#w := by
  rw [countOnes_eq_length, List.length_eq_zero_iff, setBits_eq_nil]

theorem ne_zero_of_lt_countOnes {k : ℕ} (h : k < countOnes x) : x ≠ 0#w := by
  intro hx
  rw [countOnes_eq_zero.mpr hx] at h
  omega

theorem bitSet_eq_setBits (x : BitVec w) : bitSet x = ↑(setBits x).toFinset := by
  ext k
  simp

theorem bitSet_finite (x : BitVec w) : (bitSet x).Finite := by
  rw [bitSet_eq_setBits]
  exact Finset.finite_toSet _

theorem ncard_bitSet (x : BitVec w) : (bitSet x).ncard = countOnes x := by
  have hnodup : (setBits x).Nodup := (setBits_sorted x).imp fun h => Nat.ne_of_lt h
  rw [bitSet_eq_setBits, Set.ncard_coe_finset, List.toFinset_card_of_nodup hnodup,
    countOnes_eq_length]

/-- `n & (n - 1)` drops bit `t` when `t` is the lowest set bit of `n`. -/
theorem testBit_and_pred (t m i : ℕ) :
    ((2 ^ t * (2 * m + 1)) &&& (2 ^ t * (2 * m + 1) - 1)).testBit i =
      (decide (i ≠ t) && (2 ^ t * (2 * m + 1)).testBit i) := by
  have hpos : 0 < 2 ^ t := Nat.two_pow_pos t
  have hpred : 2 ^ t * (2 * m + 1) - 1 = 2 ^ t * (2 * m) + (2 ^ t - 1) := by
    rw [Nat.mul_add, Nat.mul_one]
    omega
  rw [Nat.testBit_and, hpred, Nat.testBit_two_pow_mul_add _ (by omega), Nat.testBit_two_pow_mul]
  rcases Nat.lt_trichotomy i t with hlt | rfl | hgt
  · simp [Nat.not_le.mpr hlt]
  · simp
  · obtain ⟨d, rfl⟩ := Nat.exists_eq_add_of_lt hgt
    have hd : t + d + 1 - t = d + 1 := by omega
    have hodd : (2 * m + 1) / 2 = m := by omega
    simp [hd, Nat.testBit_succ, hodd, show ¬t + d + 1 < t by omega, show t + d + 1 ≠ t by omega]

theorem eq_two_pow_mul_odd (hx : x ≠ 0#w) :
    ∃ m, x.toNat = 2 ^ trailingZeros x * (2 * m + 1) := by
  obtain ⟨hset, hleast⟩ := isLeast_trailingZeros hx
  have hlow : x.toNat % 2 ^ trailingZeros x = 0 := by
    apply Nat.eq_of_testBit_eq
    intro i
    rw [Nat.testBit_mod_two_pow, Nat.zero_testBit, Bool.and_eq_false_iff]
    by_cases hi : i < trailingZeros x
    · right
      exact Bool.eq_false_iff.mpr fun h => absurd (hleast h) (Nat.not_le.mpr hi)
    · simp [hi]
  have hodd : x.toNat / 2 ^ trailingZeros x % 2 = 1 := by
    have h : x.toNat.testBit (trailingZeros x) = true := hset
    rw [Nat.testBit_eq_decide_div_mod_eq, decide_eq_true_eq] at h
    exact h
  refine ⟨x.toNat / 2 ^ trailingZeros x / 2, ?_⟩
  have hsplit := Nat.div_add_mod x.toNat (2 ^ trailingZeros x)
  have htwo : 2 * (x.toNat / 2 ^ trailingZeros x / 2) + 1 = x.toNat / 2 ^ trailingZeros x := by
    omega
  rw [htwo]
  omega

theorem getLsbD_clearLowest (hx : x ≠ 0#w) (k : ℕ) :
    (clearLowest x).getLsbD k = (decide (k ≠ trailingZeros x) && x.getLsbD k) := by
  obtain ⟨m, hm⟩ := eq_two_pow_mul_odd hx
  have hpos : 0 < x.toNat := by
    rw [hm]
    positivity
  have hpred : (x - 1).toNat = x.toNat - 1 := by
    have hlt := x.isLt
    have hone : (1 : BitVec w).toNat = 1 := by
      rw [BitVec.ofNat_eq_ofNat, BitVec.toNat_ofNat]
      exact Nat.mod_eq_of_lt (lt_of_le_of_lt hpos hlt)
    rw [BitVec.toNat_sub_of_le (by rw [BitVec.le_def, hone]; omega), hone]
  rw [clearLowest, ← BitVec.testBit_toNat, BitVec.toNat_and, hpred, hm, testBit_and_pred, ← hm,
    BitVec.testBit_toNat]

theorem bitSet_clearLowest (hx : x ≠ 0#w) :
    bitSet (clearLowest x) = bitSet x \ {trailingZeros x} := by
  ext k
  simp [getLsbD_clearLowest hx, and_comm]

/-- The ascending list of set bits starts with the lowest one. -/
theorem setBits_cons (hx : x ≠ 0#w) :
    setBits x = trailingZeros x :: setBits (clearLowest x) := by
  obtain ⟨hset, hleast⟩ := isLeast_trailingZeros hx
  refine List.Pairwise.eq_of_mem_iff (setBits_sorted x) (List.pairwise_cons.mpr ⟨?_, setBits_sorted _⟩) ?_
  · intro k hk
    simp only [mem_setBits, getLsbD_clearLowest hx, Bool.and_eq_true, decide_eq_true_eq] at hk
    have := hleast hk.2
    omega
  · intro k
    simp only [mem_setBits, List.mem_cons, getLsbD_clearLowest hx, Bool.and_eq_true,
      decide_eq_true_eq]
    by_cases hk : k = trailingZeros x
    · simpa [hk] using hset
    · simp [hk]

theorem countOnes_clearLowest (hx : x ≠ 0#w) : countOnes x = countOnes (clearLowest x) + 1 := by
  rw [countOnes_eq_length, countOnes_eq_length, setBits_cons hx, List.length_cons]

/-- `while x != 0 { body(x.trailing_zeros()); x &= x - 1; }`, with one unit of fuel a bit. -/
def forSetBitsFuel {ρ σ : Type} (body : ℕ → σ → Exec (Flow ρ σ)) :
    ℕ → BitVec w → σ → Exec (Flow ρ σ)
  | 0, x, s => if x = 0#w then pure (.next s) else throw .outOfFuel
  | fuel + 1, x, s =>
    if x = 0#w then pure (.next s) else do
      match ← body (trailingZeros x) s with
      | .ret r => pure (.ret r)
      | .next t => forSetBitsFuel body fuel (clearLowest x) t

def forSetBits {ρ σ : Type} (x : BitVec w) (body : ℕ → σ → Exec (Flow ρ σ)) (s : σ) :
    Exec (Flow ρ σ) := forSetBitsFuel body w x s

/-- The loop visits the set bits in ascending order and never runs out of fuel. -/
theorem forSetBits_eq_forEach {ρ σ : Type} (x : BitVec w) (body : ℕ → σ → Exec (Flow ρ σ))
    (s : σ) : forSetBits x body s = forEach body (setBits x) s := by
  have hfuel (n : ℕ) (y : BitVec w) (t : σ) (hn : (setBits y).length ≤ n) :
      forSetBitsFuel body n y t = forEach body (setBits y) t := by
    induction n generalizing y t with
    | zero =>
      have hy := setBits_eq_nil.mp (List.length_eq_zero_iff.mp (Nat.le_zero.mp hn))
      simp [forSetBitsFuel, hy, forEach]
    | succ n ih =>
      by_cases hy : y = 0#w
      · simp [forSetBitsFuel, hy, forEach]
      · rw [setBits_cons hy, List.length_cons] at hn
        rw [forSetBitsFuel, if_neg hy, setBits_cons hy, forEach]
        congr 1
        funext f
        cases f with
        | ret r => rfl
        | next u => exact ih (clearLowest y) u (by omega)
  exact hfuel w x s (setBits_length_le x)

/-- `x` marks the lanes `L`: lane `i` owns the bits `r * i .. r * i + r` and is in `L` when one of
them is set. -/
def MarksLanes (r : ℕ) (x : BitVec w) (L : Set ℕ) : Prop := (· / r) '' bitSet x = L

variable {r : ℕ} {L : Set ℕ}

theorem MarksLanes.eq_empty_iff (h : MarksLanes r x L) : L = ∅ ↔ x = 0#w := by
  rw [← h, Set.image_eq_empty, bitSet_eq_empty]

theorem div_monotone (r : ℕ) : Monotone fun k : ℕ => k / r := fun _ _ h =>
  Nat.div_le_div_right h

theorem MarksLanes.isLeast (h : MarksLanes r x L) (hx : x ≠ 0#w) :
    IsLeast L (trailingZeros x / r) := by
  rw [← h]
  exact (div_monotone r).map_isLeast (isLeast_trailingZeros hx)

theorem MarksLanes.isGreatest (h : MarksLanes r x L) (hx : x ≠ 0#w) :
    IsGreatest L ((w - 1 - leadingZeros x) / r) := by
  rw [← h]
  exact (div_monotone r).map_isGreatest (isGreatest_leadingZeros hx)

/-- Keeping the bits of the first `t` lanes keeps those lanes. -/
theorem MarksLanes.mask {t : ℕ} {keep : BitVec w} (h : MarksLanes r x L) (hr : 0 < r)
    (hkeep : ∀ k < w, keep.getLsbD k = decide (k < r * t)) :
    MarksLanes r (x &&& keep) {i ∈ L | i < t} := by
  rw [MarksLanes, ← h]
  ext i
  simp only [Set.mem_image, mem_bitSet, BitVec.getLsbD_and, Bool.and_eq_true, Set.mem_ofPred_eq]
  constructor
  · intro hs
    obtain ⟨k, ⟨hk, hlt⟩, rfl⟩ := hs
    rw [hkeep k (BitVec.lt_of_getLsbD hk), decide_eq_true_eq] at hlt
    exact ⟨⟨k, hk, rfl⟩, Nat.div_lt_of_lt_mul hlt⟩
  · intro hq
    obtain ⟨⟨k, hk, rfl⟩, hlt⟩ := hq
    refine ⟨k, ⟨hk, ?_⟩, rfl⟩
    rw [hkeep k (BitVec.lt_of_getLsbD hk), decide_eq_true_eq, Nat.mul_comm]
    exact (Nat.div_lt_iff_lt_mul hr).mp hlt

theorem marksLanes_bits (h : bitSet x = L) : MarksLanes 1 x L := by
  simpa [MarksLanes] using h

section Assembly

variable {w' k m : ℕ} {y : BitVec w} {S : Set ℕ}

theorem lt_of_mem_bitSet (h : k ∈ bitSet x) : k < w := BitVec.lt_of_getLsbD h

theorem bitSet_or (x y : BitVec w) : bitSet (x ||| y) = bitSet x ∪ bitSet y := by
  ext k
  simp

theorem bitSet_setWidth (h : ∀ k ∈ bitSet x, k < w') : bitSet (x.setWidth w') = bitSet x := by
  ext k
  simp only [mem_bitSet, BitVec.getLsbD_setWidth, Bool.and_eq_true, decide_eq_true_eq]
  exact and_iff_right_of_imp (h k)

theorem bitSet_shiftLeft (h : ∀ k ∈ bitSet x, k + m < w) :
    bitSet (x <<< m) = (· + m) '' bitSet x := by
  ext k
  simp only [mem_bitSet, BitVec.getLsbD_shiftLeft, Bool.and_eq_true, decide_eq_true_eq,
    Bool.not_eq_true', decide_eq_false_iff_not, Set.mem_image]
  constructor
  · intro hs
    obtain ⟨⟨-, hm⟩, hk⟩ := hs
    exact ⟨k - m, hk, by omega⟩
  · intro hq
    obtain ⟨j, hj, rfl⟩ := hq
    have := h j hj
    rw [Nat.add_sub_cancel]
    exact ⟨⟨this, by omega⟩, hj⟩

theorem bitSet_ushiftRight (x : BitVec w) (m : ℕ) : bitSet (x >>> m) = {k | m + k ∈ bitSet x} := by
  ext k
  simp [BitVec.getLsbD_ushiftRight]

end Assembly

end MemchrN
