import MemchrN.Framework.SetBits

namespace MemchrN

abbrev U8 := BitVec 8
abbrev U16 := BitVec 16
abbrev U64 := BitVec 64
abbrev U128 := BitVec 128

/-- The number written by its base-256 digits, lowest first. -/
def leNat : List U8 → ℕ
  | [] => 0
  | b :: bs => b.toNat + 256 * leNat bs

def fromLeBytes (w : ℕ) {n : ℕ} (v : Vector U8 n) : BitVec w := BitVec.ofNat w (leNat v.toList)

/-- Byte `i` of a word, counted from the low end. -/
def byteAt {w : ℕ} (x : BitVec w) (i : ℕ) : U8 := x.extractLsb' (8 * i) 8

def toLeBytes (n : ℕ) {w : ℕ} (x : BitVec w) : Vector U8 n := Vector.ofFn fun i => byteAt x i

/-- The word with the same byte in every lane. -/
def splatBytes (n w : ℕ) (b : U8) : BitVec w := fromLeBytes w (Vector.replicate n b)

variable {w n i k : ℕ} {x y : BitVec w}

theorem leNat_lt (bs : List U8) : leNat bs < 256 ^ bs.length := by
  induction bs with
  | nil => decide
  | cons b bs ih =>
    have hb := b.isLt
    rw [leNat, List.length_cons, Nat.pow_succ]
    omega

theorem leNat_digit (bs : List U8) (h : i < bs.length) :
    leNat bs / 256 ^ i % 256 = bs[i].toNat := by
  induction bs generalizing i with
  | nil => simp at h
  | cons b bs ih =>
    have hb := b.isLt
    cases i with
    | zero =>
      rw [leNat, Nat.pow_zero, List.getElem_cons_zero]
      omega
    | succ i =>
      rw [List.getElem_cons_succ, ← ih (by simpa using h), leNat, Nat.pow_succ', ← Nat.div_div_eq_div_mul]
      congr 2
      omega

theorem toNat_byteAt (x : BitVec w) (i : ℕ) : (byteAt x i).toNat = x.toNat / 256 ^ i % 256 := by
  rw [byteAt, BitVec.extractLsb'_toNat, Nat.shiftRight_eq_div_pow, Nat.pow_mul]

theorem toNat_fromLeBytes (v : Vector U8 n) (hw : 8 * n ≤ w) :
    (fromLeBytes w v).toNat = leNat v.toList := by
  have hlt := leNat_lt v.toList
  have hpow : 256 ^ n ≤ 2 ^ w := by
    rw [show 256 = 2 ^ 8 by rfl, ← Nat.pow_mul]
    exact Nat.pow_le_pow_right (by decide) hw
  rw [Vector.length_toList] at hlt
  rw [fromLeBytes, BitVec.toNat_ofNat, Nat.mod_eq_of_lt (hlt.trans_le hpow)]

theorem byteAt_fromLeBytes (v : Vector U8 n) (hw : 8 * n ≤ w) (hi : i < n) :
    byteAt (fromLeBytes w v) i = v[i] := by
  apply BitVec.eq_of_toNat_eq
  rw [toNat_byteAt, toNat_fromLeBytes v hw, leNat_digit _ (by simpa using hi)]
  simp

theorem byteAt_splatBytes (b : U8) (hw : 8 * n ≤ w) (hi : i < n) :
    byteAt (splatBytes n w b) i = b := by
  rw [splatBytes, byteAt_fromLeBytes _ hw hi, Vector.getElem_replicate]

theorem getLsbD_eq_byteAt (x : BitVec w) (k : ℕ) :
    x.getLsbD k = (byteAt x (k / 8)).getLsbD (k % 8) := by
  have hk := Nat.div_add_mod k 8
  rw [byteAt, BitVec.getLsbD_extractLsb', hk]
  simp [Nat.mod_lt]

theorem byteAt_ext (hw : w = 8 * n) (h : ∀ i < n, byteAt x i = byteAt y i) : x = y := by
  apply BitVec.eq_of_getLsbD_eq
  intro k hk
  rw [getLsbD_eq_byteAt x, getLsbD_eq_byteAt y, h (k / 8) (by omega)]

@[simp] theorem byteAt_and (x y : BitVec w) (i : ℕ) :
    byteAt (x &&& y) i = byteAt x i &&& byteAt y i := by
  ext j hj
  simp [byteAt]

@[simp] theorem byteAt_or (x y : BitVec w) (i : ℕ) :
    byteAt (x ||| y) i = byteAt x i ||| byteAt y i := by
  ext j hj
  simp [byteAt]

@[simp] theorem byteAt_xor (x y : BitVec w) (i : ℕ) :
    byteAt (x ^^^ y) i = byteAt x i ^^^ byteAt y i := by
  ext j hj
  simp [byteAt]

theorem byteAt_not (x : BitVec w) (hi : 8 * (i + 1) ≤ w) : byteAt (~~~x) i = ~~~byteAt x i := by
  ext j hj
  simp [byteAt, show 8 * i + j < w by omega]

theorem setWidth_eq_byteAt (x : BitVec w) : x.setWidth 8 = byteAt x 0 := by
  ext j hj
  simp [byteAt]

/-- Shifting by whole bytes moves the lanes up. -/
theorem byteAt_shiftLeft (x : BitVec w) (m : ℕ) (hi : 8 * (i + 1) ≤ w) :
    byteAt (x <<< (m * 8)) i = if i < m then 0#8 else byteAt x (i - m) := by
  ext j hj
  have hlt : 8 * i + j < w := by omega
  rw [← BitVec.getLsbD_eq_getElem, byteAt, BitVec.getLsbD_extractLsb', BitVec.getLsbD_shiftLeft]
  split_ifs with h
  · simp [show 8 * i + j < m * 8 by omega]
  · rw [show 8 * i + j - m * 8 = 8 * (i - m) + j by omega]
    simp [byteAt, hj, hlt, show ¬8 * i + j < m * 8 by omega]

/-- Adding digit by digit: no digit sum reaches the base, so nothing carries and nothing is lost. -/
theorem digit_add (a b n : ℕ) (ha : a < 256 ^ n) (hb : b < 256 ^ n)
    (h : ∀ i < n, a / 256 ^ i % 256 + b / 256 ^ i % 256 < 256) :
    a + b < 256 ^ n ∧
      ∀ i, (a + b) / 256 ^ i % 256 = a / 256 ^ i % 256 + b / 256 ^ i % 256 := by
  induction n generalizing a b with
  | zero =>
    rw [Nat.pow_zero, Nat.lt_one_iff] at ha hb
    subst ha hb
    simp
  | succ n ih =>
    have h0 : a % 256 + b % 256 < 256 := by simpa using h 0 (by omega)
    have hdiv : (a + b) / 256 = a / 256 + b / 256 := by omega
    rw [Nat.pow_succ] at ha hb
    obtain ⟨hlt, hdigit⟩ := ih (a / 256) (b / 256) (by omega) (by omega) fun i hi => by
      simpa [Nat.div_div_eq_div_mul, ← Nat.pow_succ'] using h (i + 1) (by omega)
    refine ⟨by rw [Nat.pow_succ]; omega, fun i => ?_⟩
    cases i with
    | zero => rw [Nat.pow_zero, Nat.div_one, Nat.div_one, Nat.div_one]; omega
    | succ i =>
      have := hdigit i
      rwa [← hdiv, Nat.div_div_eq_div_mul, Nat.div_div_eq_div_mul, Nat.div_div_eq_div_mul,
        ← Nat.pow_succ'] at this

/-- Subtracting digit by digit: nothing borrows. -/
theorem digit_sub (a b n : ℕ) (ha : a < 256 ^ n) (hb : b < 256 ^ n)
    (h : ∀ i < n, b / 256 ^ i % 256 ≤ a / 256 ^ i % 256) :
    b ≤ a ∧ ∀ i, (a - b) / 256 ^ i % 256 = a / 256 ^ i % 256 - b / 256 ^ i % 256 := by
  induction n generalizing a b with
  | zero =>
    rw [Nat.pow_zero, Nat.lt_one_iff] at ha hb
    subst ha hb
    simp
  | succ n ih =>
    have h0 : b % 256 ≤ a % 256 := by simpa using h 0 (by omega)
    rw [Nat.pow_succ] at ha hb
    obtain ⟨hle, hdigit⟩ := ih (a / 256) (b / 256) (by omega) (by omega) fun i hi => by
      simpa [Nat.div_div_eq_div_mul, ← Nat.pow_succ'] using h (i + 1) (by omega)
    have hdiv : (a - b) / 256 = a / 256 - b / 256 := by omega
    refine ⟨by omega, fun i => ?_⟩
    cases i with
    | zero => rw [Nat.pow_zero, Nat.div_one, Nat.div_one, Nat.div_one]; omega
    | succ i =>
      have := hdigit i
      rwa [← hdiv, Nat.div_div_eq_div_mul, Nat.div_div_eq_div_mul, Nat.div_div_eq_div_mul,
        ← Nat.pow_succ'] at this

theorem two_pow_bytes (hw : w = 8 * n) : 2 ^ w = 256 ^ n := by rw [hw, Nat.pow_mul]

theorem toNat_lt_bytes (x : BitVec w) (hw : w = 8 * n) : x.toNat < 256 ^ n :=
  x.isLt.trans_eq (two_pow_bytes hw)

/-- Word addition acts lane by lane when no lane overflows, and then the word does not either. -/
theorem byteAt_add (hw : w = 8 * n)
    (h : ∀ i < n, (byteAt x i).toNat + (byteAt y i).toNat < 256) :
    x.toNat + y.toNat < 2 ^ w ∧ ∀ i, byteAt (x + y) i = byteAt x i + byteAt y i := by
  simp only [toNat_byteAt] at h
  obtain ⟨hlt, hdigit⟩ := digit_add x.toNat y.toNat n (toNat_lt_bytes x hw) (toNat_lt_bytes y hw) h
  have hfit : x.toNat + y.toNat < 2 ^ w := hlt.trans_eq (two_pow_bytes hw).symm
  refine ⟨hfit, fun i => BitVec.eq_of_toNat_eq ?_⟩
  have hmod := Nat.mod_lt ((x.toNat + y.toNat) / 256 ^ i) (show 0 < 256 by decide)
  rw [BitVec.toNat_add, toNat_byteAt, toNat_byteAt, toNat_byteAt, BitVec.toNat_add,
    Nat.mod_eq_of_lt hfit, ← hdigit i]
  omega

theorem byteAt_sub (hw : w = 8 * n) (h : ∀ i < n, (byteAt y i).toNat ≤ (byteAt x i).toNat) :
    y.toNat ≤ x.toNat ∧ ∀ i, byteAt (x - y) i = byteAt x i - byteAt y i := by
  simp only [toNat_byteAt] at h
  obtain ⟨hle, hdigit⟩ := digit_sub x.toNat y.toNat n (toNat_lt_bytes x hw) (toNat_lt_bytes y hw) h
  refine ⟨hle, fun i => BitVec.eq_of_toNat_eq ?_⟩
  have hx := Nat.mod_lt (x.toNat / 256 ^ i) (show 0 < 256 by decide)
  have hy := Nat.mod_lt (y.toNat / 256 ^ i) (show 0 < 256 by decide)
  have hd := hdigit i
  have hlane : y.toNat / 256 ^ i % 256 ≤ x.toNat / 256 ^ i % 256 := by
    rcases Nat.lt_or_ge i n with hi | hi
    · exact h i hi
    · have hz : y.toNat / 256 ^ i = 0 := Nat.div_eq_of_lt
        ((toNat_lt_bytes y hw).trans_le (Nat.pow_le_pow_right (by decide) hi))
      simp [hz]
  rw [BitVec.toNat_sub_of_le (BitVec.le_def.mpr (by rw [toNat_byteAt, toNat_byteAt]; exact hlane)),
    toNat_byteAt, toNat_byteAt, toNat_byteAt, BitVec.toNat_sub_of_le (BitVec.le_def.mpr hle), hd]

/-- A word marks the lanes whose byte is nonzero. -/
theorem marksLanes_bytes {L : Set ℕ} (hw : w = 8 * n) (hL : ∀ i ∈ L, i < n)
    (h : ∀ i < n, byteAt x i ≠ 0 ↔ i ∈ L) : MarksLanes 8 x L := by
  ext i
  constructor
  · intro hs
    obtain ⟨k, hk, rfl⟩ := hs
    have hkw : k < w := BitVec.lt_of_getLsbD hk
    apply (h (k / 8) (by omega)).mp
    intro h0
    rw [mem_bitSet, getLsbD_eq_byteAt, h0] at hk
    simp at hk
  · intro hi
    have hne := (h i (hL i hi)).mpr hi
    obtain ⟨hbit, -⟩ := isLeast_trailingZeros hne
    have hlt := trailingZeros_lt hne
    refine ⟨8 * i + trailingZeros (byteAt x i), ?_, by dsimp only; omega⟩
    rw [mem_bitSet, getLsbD_eq_byteAt]
    rwa [show (8 * i + trailingZeros (byteAt x i)) / 8 = i by omega,
      show (8 * i + trailingZeros (byteAt x i)) % 8 = trailingZeros (byteAt x i) by omega]

end MemchrN
