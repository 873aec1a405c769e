import MemchrN.Search.Lookups

namespace MemchrN.Swar

/-- Bytes in a word. -/
abbrev wordBytes : ℕ := 8

def splat (byte : U8) : U64 := splatBytes wordBytes 64 byte

def high : U64 := splat 0x80

/-- Sets bit 7 of every nonzero byte. -/
def nonzeroBytes (word : U64) : U64 := ((word &&& ~~~high) + ~~~high) ||| word

/-- Gathers bit 7 of each byte into the low byte. -/
def movemask (marks : U64) : U64 := (marks * 0x0002040810204081#64) >>> 56

/-- `matchesWord` marks each matching byte with `0x80` and every other byte with zero. -/
class Kernel (K : Type) where
  matchesWord : K → U64 → U64
  matchesByte : K → U8 → Bool

/-- The word marks are exactly the lanes the scalar test accepts. -/
def Lawful {K : Type} [Kernel K] (kernel : K) : Prop :=
  ∀ word i, i < wordBytes → byteAt (Kernel.matchesWord kernel word) i =
    if Kernel.matchesByte kernel (byteAt word i) then 0x80#8 else 0#8

structure AnyOf (N : ℕ) where
  splattedNeedles : Vector U64 N

def anyOfMatches {N : ℕ} (word : U64) (splattedNeedles : Vector U64 N) : U64 :=
  let nonzero := splattedNeedles.toList.foldl
    (fun nonzero needle => nonzero &&& nonzeroBytes (word ^^^ needle)) (~~~0#64)
  ~~~nonzero &&& high

namespace AnyOf

variable {N : ℕ}

def new (needles : Vector U8 N) : AnyOf N := ⟨needles.map splat⟩

instance : Kernel (AnyOf N) where
  matchesWord k word := anyOfMatches word k.splattedNeedles
  matchesByte k byte := k.splattedNeedles.toList.any fun needle => needle.setWidth 8 == byte

end AnyOf

structure NotByte where
  splattedByte : U64

namespace NotByte

def new (byte : U8) : NotByte := ⟨splat byte⟩

instance : Kernel NotByte where
  matchesWord k word := nonzeroBytes (word ^^^ k.splattedByte) &&& high
  matchesByte k byte := byte != k.splattedByte.setWidth 8

end NotByte

/-- Precomputed masks: the start without its high bits, its complement, the low seven bits of the
span under a set high bit, and the span's high bit spread over the word. -/
structure OneRange where
  start : U64
  notStart : U64
  spanLow : U64
  spanHigh : U64

namespace OneRange

def new (range : ByteRange) : OneRange :=
  let span := range.last - range.start
  let start := splat range.start
  ⟨start &&& ~~~high, ~~~start, splat (span &&& 0x7F#8) ||| high,
    if span &&& 0x80#8 = 0#8 then 0#64 else BitVec.allOnes 64⟩

/-- Eight wrapping subtractions `byte - start` at once. -/
def shifted (k : OneRange) (word : U64) : U64 :=
  ((word ||| high) - k.start) ^^^ ((word ^^^ k.notStart) &&& high)

instance : Kernel OneRange where
  matchesWord k word :=
    let shifted := k.shifted word
    let lowGe := (k.spanLow - (shifted &&& ~~~high)) &&& high
    let clearHigh := ~~~shifted &&& high
    (clearHigh &&& lowGe) ||| (k.spanHigh &&& (clearHigh ||| (shifted &&& lowGe)))
  matchesByte k byte :=
    let start := (~~~k.notStart).setWidth 8
    let span := (k.spanLow.setWidth 8 &&& ~~~0x80#8) ||| (k.spanHigh.setWidth 8 &&& 0x80#8)
    decide (byte - start ≤ span)

end OneRange

instance : Kernel BitsetLookup where
  matchesWord k word := (List.finRange wordBytes).foldl (fun marks (i : Fin wordBytes) =>
    marks ||| ((if k.contains (byteAt word i) then 1#64 else 0#64) <<< (i.val * 8 + 7))) 0
  matchesByte k byte := k.contains byte

variable {N i : ℕ}

theorem byteAt_splat (byte : U8) (hi : i < 8) : byteAt (splat byte) i = byte :=
  byteAt_splatBytes byte (by decide) hi

theorem setWidth_splat (byte : U8) : (splat byte).setWidth 8 = byte := by
  rw [setWidth_eq_byteAt, byteAt_splat _ (by decide)]

@[simp] theorem byteAt_high (hi : i < 8) : byteAt high i = 0x80#8 := byteAt_splat _ hi

@[simp] theorem byteAt_not_high (hi : i < 8) : byteAt (~~~high) i = 0x7F#8 := by
  rw [byteAt_not _ (by omega), byteAt_high hi]
  rfl

theorem and_low_add_lt (b : U8) : (b &&& 0x7F#8).toNat + (0x7F#8).toNat < 256 := by
  have h : b &&& 0x7F#8 ≤ 0x7F#8 := by
    rw [BitVec.le_def, BitVec.toNat_and]
    exact Nat.and_le_right
  have := BitVec.le_def.mp h
  simp only [BitVec.toNat_ofNat] at this ⊢
  omega

theorem nonzeroBytes_lane_fits (word : U64) (hi : i < 8) :
    (byteAt (word &&& ~~~high) i).toNat + (byteAt (~~~high) i).toNat < 256 := by
  rw [byteAt_and, byteAt_not_high hi]
  exact and_low_add_lt _

/-- The addition in `nonzeroBytes` stays inside every lane, hence inside the word. -/
theorem nonzeroBytes_no_carry (word : U64) :
    (word &&& ~~~high).toNat + (~~~high).toNat < 2 ^ 64 ∧
      ∀ i, byteAt ((word &&& ~~~high) + ~~~high) i =
        byteAt (word &&& ~~~high) i + byteAt (~~~high) i := by
  apply byteAt_add (n := 8) rfl
  intro i hi
  exact nonzeroBytes_lane_fits word hi

/-- A lane of `word` differs from the needle exactly when bit 7 comes out set. -/
theorem byteAt_nonzeroBytes (word : U64) (needle : U8) (hi : i < 8) :
    byteAt (nonzeroBytes (word ^^^ splat needle)) i &&& 0x80#8 =
      if byteAt word i = needle then 0#8 else 0x80#8 := by
  have hbyte : ∀ b : U8, ((b &&& 0x7F#8) + 0x7F#8 ||| b) &&& 0x80#8 =
      if b = 0#8 then 0#8 else 0x80#8 := by decide
  rw [nonzeroBytes, byteAt_or, (nonzeroBytes_no_carry _).2, byteAt_and, byteAt_not_high hi,
    byteAt_xor, byteAt_splat _ hi, hbyte]
  simp only [BitVec.xor_eq_zero_iff]

theorem anyOf_matchesByte (needles : Vector U8 N) (byte : U8) :
    Kernel.matchesByte (AnyOf.new needles) byte = decide (byte ∈ needles.toList) := by
  simp only [Kernel.matchesByte, AnyOf.new, Vector.toList_map, List.any_map, Function.comp_def,
    setWidth_splat]
  rw [Bool.eq_iff_iff, decide_eq_true_eq, List.any_eq_true]
  simp

theorem notByte_matchesByte (excluded byte : U8) :
    Kernel.matchesByte (NotByte.new excluded) byte = (byte != excluded) := by
  simp only [Kernel.matchesByte, NotByte.new, setWidth_splat]

/-- Bit 7 of a lane survives the fold over the needles exactly when the byte differs from all. -/
theorem byteAt_anyOf_fold (word : U64) (needles : List U8) (acc : U64) (hi : i < 8) :
    byteAt ((needles.map splat).foldl
        (fun nonzero needle => nonzero &&& nonzeroBytes (word ^^^ needle)) acc) i &&& 0x80#8 =
      if byteAt word i ∈ needles then 0#8 else byteAt acc i &&& 0x80#8 := by
  induction needles generalizing acc with
  | nil => simp
  | cons needle needles ih =>
    rw [List.map_cons, List.foldl_cons, ih, byteAt_and, BitVec.and_assoc,
      byteAt_nonzeroBytes word needle hi]
    by_cases hmem : byteAt word i ∈ needles
    · simp [hmem]
    · by_cases he : byteAt word i = needle
      · simp [he]
      · rw [if_neg hmem, if_neg he, if_neg (by simp [he, hmem])]

theorem anyOf_lawful (needles : Vector U8 N) : Lawful (AnyOf.new needles) := by
  intro word i (hi : i < 8)
  have hfold := byteAt_anyOf_fold word needles.toList (~~~0#64) hi
  have hones : byteAt (~~~0#64) i &&& 0x80#8 = 0x80#8 := by
    rw [byteAt_not _ (by omega)]
    simp [byteAt]
  have hbyte : ∀ b : U8, ~~~b &&& 0x80#8 = if b &&& 0x80#8 = 0#8 then 0x80#8 else 0#8 := by decide
  rw [anyOf_matchesByte]
  simp only [Kernel.matchesWord, AnyOf.new, anyOfMatches, Vector.toList_map]
  rw [byteAt_and, byteAt_high hi, byteAt_not _ (by omega), hbyte, hfold, hones]
  by_cases hmem : byteAt word i ∈ needles.toList <;> simp [hmem]

theorem notByte_lawful (excluded : U8) : Lawful (NotByte.new excluded) := by
  intro word i (hi : i < 8)
  rw [notByte_matchesByte]
  simp only [Kernel.matchesWord, NotByte.new]
  rw [byteAt_and, byteAt_high hi, byteAt_nonzeroBytes word excluded hi]
  by_cases he : byteAt word i = excluded <;> simp [he]

theorem or_high_toNat : ∀ b : U8, (b ||| 0x80#8).toNat = 128 + b.toNat % 128 := by decide

theorem and_low_toNat : ∀ b : U8, (b &&& 0x7F#8).toNat = b.toNat % 128 := by decide

theorem and_high_eq : ∀ b : U8, b &&& 0x80#8 = if b.toNat < 128 then 0#8 else 0x80#8 := by decide

theorem not_and_high_eq :
    ∀ b : U8, ~~~b &&& 0x80#8 = if b.toNat < 128 then 0x80#8 else 0#8 := by decide

theorem xor_high_toNat : ∀ b : U8, (b ^^^ 0x80#8).toNat = (b.toNat + 128) % 256 := by decide

theorem xor_and (a b m : U8) : (a ^^^ b) &&& m = (a &&& m) ^^^ (b &&& m) := by
  ext j hj
  cases h : m[j] <;> simp [h]

/-- One lane of the wrapping subtraction, from a high bit saturated minuend. -/
theorem shifted_byte (b s : U8) :
    ((b ||| 0x80#8) - (s &&& 0x7F#8)) ^^^ ((b ^^^ ~~~s) &&& 0x80#8) = b - s := by
  have hb := b.isLt
  have hs := s.isLt
  have hle : s &&& 0x7F#8 ≤ b ||| 0x80#8 := by
    rw [BitVec.le_def, or_high_toNat, and_low_toNat]
    omega
  have hsub : ((b ||| 0x80#8) - (s &&& 0x7F#8)).toNat =
      128 + b.toNat % 128 - s.toNat % 128 := by
    rw [BitVec.toNat_sub_of_le hle, or_high_toNat, and_low_toNat]
  apply BitVec.eq_of_toNat_eq
  rw [xor_and, and_high_eq b, not_and_high_eq s, BitVec.toNat_sub]
  split_ifs with h1 h2 h2
  · rw [BitVec.zero_xor, xor_high_toNat, hsub]
    omega
  · rw [BitVec.xor_self, BitVec.xor_zero, hsub]
    omega
  · rw [BitVec.xor_self, BitVec.xor_zero, hsub]
    omega
  · rw [BitVec.xor_zero, xor_high_toNat, hsub]
    omega

/-- One lane of the comparison `d ≤ span`, from its low seven bits and the two high bits. -/
theorem range_byte (d span : U8) :
    let lowGe := ((span &&& 0x7F#8 ||| 0x80#8) - (d &&& 0x7F#8)) &&& 0x80#8
    let clearHigh := ~~~d &&& 0x80#8
    let spanHigh := if span &&& 0x80#8 = 0#8 then 0#8 else 0xFF#8
    (clearHigh &&& lowGe) ||| (spanHigh &&& (clearHigh ||| (d &&& lowGe))) =
      if d ≤ span then 0x80#8 else 0#8 := by
  have hd := d.isLt
  have hspan := span.isLt
  have hle : d &&& 0x7F#8 ≤ span &&& 0x7F#8 ||| 0x80#8 := by
    rw [BitVec.le_def, or_high_toNat, and_low_toNat]
    omega
  have hlow : ((span &&& 0x7F#8 ||| 0x80#8) - (d &&& 0x7F#8)) &&& 0x80#8 =
      if span.toNat % 128 < d.toNat % 128 then 0#8 else 0x80#8 := by
    rw [and_high_eq, BitVec.toNat_sub_of_le hle, or_high_toNat, and_low_toNat, and_low_toNat]
    split_ifs <;> first | rfl | omega
  have hzero : (0x80#8 : U8) ≠ 0#8 := by decide
  simp only [hlow, not_and_high_eq, and_high_eq span, BitVec.le_def]
  by_cases hd7 : d.toNat < 128 <;> by_cases hs7 : span.toNat < 128 <;>
    by_cases hlt : span.toNat % 128 < d.toNat % 128 <;>
    simp only [hd7, hs7, hlt, if_true, if_false, and_high_eq d, BitVec.and_zero, BitVec.zero_and,
      BitVec.zero_or, BitVec.or_zero, BitVec.and_self, hzero]
  all_goals split_ifs <;> first | rfl | omega

variable (range : ByteRange)

theorem span_high_byte (span : U8) (hi : i < 8) :
    byteAt (if span &&& 0x80#8 = 0#8 then 0#64 else BitVec.allOnes 64) i =
      if span &&& 0x80#8 = 0#8 then 0#8 else 0xFF#8 := by
  have hones : byteAt (~~~(0#64)) i = 0xFF#8 := by
    rw [byteAt_not _ (by omega)]
    simp [byteAt]
  split_ifs
  · simp [byteAt]
  · simpa using hones

theorem oneRange_matchesByte (byte : U8) :
    Kernel.matchesByte (OneRange.new range) byte =
      decide (byte - range.start ≤ range.last - range.start) := by
  have hspan : ∀ span : U8, ((span &&& 0x7F#8 ||| 0x80#8) &&& ~~~0x80#8) |||
      ((if span &&& 0x80#8 = 0#8 then 0#8 else 0xFF#8) &&& 0x80#8) = span := by decide
  have hlane : 0 < 8 := by decide
  have hstart : byteAt (~~~~~~splat range.start) 0 = range.start := by
    rw [BitVec.not_not, byteAt_splat _ hlane]
  simp only [Kernel.matchesByte, OneRange.new, setWidth_eq_byteAt]
  rw [hstart]
  simp only [byteAt_or, byteAt_splat _ hlane, byteAt_high hlane]
  rw [span_high_byte _ hlane, hspan]

/-- In every lane of both subtractions of a range test the subtrahend is the smaller. -/
theorem oneRange_lanes_le (word : U64) (hi : i < 8) :
    let k := OneRange.new range
    byteAt k.start i ≤ byteAt (word ||| high) i ∧
      byteAt (k.shifted word &&& ~~~high) i ≤ byteAt k.spanLow i := by
  have hle (a b : U8) : a &&& 0x7F#8 ≤ b ||| 0x80#8 := by
    rw [BitVec.le_def, and_low_toNat, or_high_toNat]
    omega
  simp only [OneRange.new, byteAt_and, byteAt_or, byteAt_high hi, byteAt_not_high hi]
  exact ⟨hle _ _, hle _ _⟩

/-- Both subtractions of a range test stay inside their lanes, hence inside the word. -/
theorem oneRange_no_borrow (word : U64) :
    let k := OneRange.new range
    (k.start.toNat ≤ (word ||| high).toNat ∧
      ∀ i, byteAt ((word ||| high) - k.start) i = byteAt (word ||| high) i - byteAt k.start i) ∧
    ((k.shifted word &&& ~~~high).toNat ≤ k.spanLow.toNat ∧
      ∀ i, byteAt (k.spanLow - (k.shifted word &&& ~~~high)) i =
        byteAt k.spanLow i - byteAt (k.shifted word &&& ~~~high) i) := by
  constructor
  · apply byteAt_sub (n := 8) rfl
    intro i hi
    exact BitVec.le_def.mp (oneRange_lanes_le range word hi).1
  · apply byteAt_sub (n := 8) rfl
    intro i hi
    exact BitVec.le_def.mp (oneRange_lanes_le range word hi).2

theorem byteAt_shifted (word : U64) (hi : i < 8) :
    byteAt ((OneRange.new range).shifted word) i = byteAt word i - range.start := by
  rw [OneRange.shifted, byteAt_xor, (oneRange_no_borrow range word).1.2]
  simp only [OneRange.new, byteAt_and, byteAt_or, byteAt_xor, byteAt_high hi, byteAt_not_high hi,
    byteAt_splat _ hi, byteAt_not _ (show 8 * (i + 1) ≤ 64 by omega)]
  exact shifted_byte _ _

theorem oneRange_lawful : Lawful (OneRange.new range) := by
  intro word i (hi : i < 8)
  have hshift := byteAt_shifted range word hi
  have hlow := (oneRange_no_borrow range word).2.2 i
  simp only [oneRange_matchesByte, decide_eq_true_eq, Kernel.matchesWord, byteAt_or, byteAt_and,
    byteAt_not _ (show 8 * (i + 1) ≤ 64 by omega), hlow, hshift, byteAt_high hi]
  simp only [OneRange.new, byteAt_or, byteAt_splat _ hi, byteAt_high hi, span_high_byte _ hi]
  exact range_byte _ _

theorem contiguous_iff {start last byte : U8} (h : start ≤ last) :
    byte - start ≤ last - start ↔ start ≤ byte ∧ byte ≤ last := by
  rw [BitVec.le_def] at h
  rw [BitVec.le_def, BitVec.le_def, BitVec.le_def, BitVec.toNat_sub, BitVec.toNat_sub]
  omega

theorem oneRange_matchesByte_iff {range : ByteRange} (hrange : range.start ≤ range.last)
    (byte : U8) : Kernel.matchesByte (OneRange.new range) byte = true ↔
      range.start ≤ byte ∧ byte ≤ range.last := by
  rw [oneRange_matchesByte, decide_eq_true_eq, contiguous_iff hrange]

/-- A range marks exactly its bytes. Neither subtraction underflows or borrows across a lane, and
the scalar test, which rebuilds the start and the span from the masks, agrees with the marks. -/
theorem oneRange_is_exact (hrange : range.start ≤ range.last) (word : U64) :
    let k := OneRange.new range
    (∀ i < 8, byteAt (Kernel.matchesWord k word) i =
      if range.start ≤ byteAt word i ∧ byteAt word i ≤ range.last then 0x80#8 else 0#8) ∧
    (k.start.toNat ≤ (word ||| high).toNat ∧
      ∀ i < 8, byteAt k.start i ≤ byteAt (word ||| high) i ∧
        byteAt ((word ||| high) - k.start) i = byteAt (word ||| high) i - byteAt k.start i) ∧
    ((k.shifted word &&& ~~~high).toNat ≤ k.spanLow.toNat ∧
      ∀ i < 8, byteAt (k.shifted word &&& ~~~high) i ≤ byteAt k.spanLow i ∧
        byteAt (k.spanLow - (k.shifted word &&& ~~~high)) i =
          byteAt k.spanLow i - byteAt (k.shifted word &&& ~~~high) i) ∧
    (∀ i < 8, Kernel.matchesByte k (byteAt word i) = true ↔
      byteAt (Kernel.matchesWord k word) i = 0x80#8) ∧
    ∀ byte, Kernel.matchesByte k byte = true ↔ range.start ≤ byte ∧ byte ≤ range.last := by
  intro k
  obtain ⟨⟨hstart, hfirst⟩, hspan, hsecond⟩ := oneRange_no_borrow range word
  have hlane (i : ℕ) (hi : i < 8) := oneRange_lawful range word i hi
  refine ⟨?_, ⟨hstart, ?_⟩, ⟨hspan, ?_⟩, ?_, oneRange_matchesByte_iff hrange⟩
  · intro i hi
    rw [hlane i hi]
    simp only [oneRange_matchesByte_iff hrange]
  · intro i hi
    exact ⟨(oneRange_lanes_le range word hi).1, hfirst i⟩
  · intro i hi
    exact ⟨(oneRange_lanes_le range word hi).2, hsecond i⟩
  · intro i hi
    rw [hlane i hi]
    by_cases hmatch : Kernel.matchesByte k (byteAt word i) = true
    · simp [k, hmatch]
    · simp [k, hmatch]

theorem oneRange_is_exact_wide :
    byteAt (Kernel.matchesWord (OneRange.new ⟨0x20#8, 0xF0#8⟩) 0xF1F0802100FF1F20#64) 6 = 0x80#8 := by
  rw [(oneRange_is_exact ⟨0x20#8, 0xF0#8⟩ (by decide) _).1 6 (by decide)]
  decide

theorem byteAt_lookup_mark (bit : Bool) {lane : ℕ} (hi : i < 8) (hlane : lane < 8) :
    byteAt ((if bit then 1#64 else 0#64) <<< (lane * 8 + 7)) i =
      if lane = i ∧ bit then 0x80#8 else 0#8 := by
  cases bit with
  | false => simp [byteAt]
  | true =>
    have hall : ∀ lane i : Fin 8, byteAt (1#64 <<< (lane.val * 8 + 7)) i.val =
        if lane = i then 0x80#8 else 0#8 := by decide
    simpa [Fin.ext_iff] using hall ⟨lane, hlane⟩ ⟨i, hi⟩

theorem bitsetLookup_lawful (k : BitsetLookup) : Lawful k := by
  intro word i (hi : i < 8)
  have hfold (lanes : List (Fin wordBytes)) (marks : U64) :
      byteAt (lanes.foldl (fun marks (lane : Fin wordBytes) => marks |||
          ((if k.contains (byteAt word lane) then 1#64 else 0#64) <<< (lane.val * 8 + 7))) marks) i =
        byteAt marks i ||| if ⟨i, hi⟩ ∈ lanes ∧ k.contains (byteAt word i) then 0x80#8 else 0#8 := by
    induction lanes generalizing marks with
    | nil => simp
    | cons lane lanes ih =>
      rw [List.foldl_cons, ih, byteAt_or, byteAt_lookup_mark _ hi lane.isLt, BitVec.or_assoc]
      congr 1
      by_cases he : lane.val = i
      · subst he
        by_cases hmem : lane ∈ lanes <;> cases k.contains (byteAt word lane) <;> simp [hmem]
      · have hne : (⟨i, hi⟩ : Fin wordBytes) ≠ lane := fun h => he (congrArg Fin.val h).symm
        simp [he, hne]
  simp only [Kernel.matchesWord, Kernel.matchesByte]
  rw [hfold]
  have hzero : byteAt (0#64) i = 0#8 := by simp [byteAt]
  by_cases hbit : k.contains (byteAt word i) = true <;> simp [hzero, hbit]

/-- The other kernels mark exactly the lanes they accept, lane `i` being byte `i` of what was read.
The addition they share stays within its lanes. -/
theorem wordKernels_are_exact :
    (∀ (N : ℕ) (needles : Vector U8 N), Lawful (AnyOf.new needles) ∧
      ∀ byte, Kernel.matchesByte (AnyOf.new needles) byte = true ↔ byte ∈ needles.toList) ∧
    (∀ excluded : U8, Lawful (NotByte.new excluded) ∧
      ∀ byte, Kernel.matchesByte (NotByte.new excluded) byte = true ↔ byte ≠ excluded) ∧
    (∀ set : ByteSet, Lawful (BitsetLookup.mk set) ∧
      ∀ byte, Kernel.matchesByte (BitsetLookup.mk set) byte = true ↔ set.contains byte = true) ∧
    (∀ word : U64, (word &&& ~~~high).toNat + (~~~high).toNat < 2 ^ 64 ∧
      ∀ i < 8, (byteAt (word &&& ~~~high) i).toNat + (byteAt (~~~high) i).toNat < 256 ∧
        byteAt ((word &&& ~~~high) + ~~~high) i =
          byteAt (word &&& ~~~high) i + byteAt (~~~high) i) ∧
    ∀ (bytes : Vector U8 8) (i : Fin 8), byteAt (fromLeBytes 64 bytes) i = bytes.get i := by
  refine ⟨?_, ?_, ?_, ?_, ?_⟩
  · intro N needles
    refine ⟨anyOf_lawful needles, fun byte => ?_⟩
    rw [anyOf_matchesByte, decide_eq_true_eq]
  · intro excluded
    refine ⟨notByte_lawful excluded, fun byte => ?_⟩
    rw [notByte_matchesByte, bne_iff_ne]
  · intro set
    exact ⟨bitsetLookup_lawful _, fun byte => Iff.rfl⟩
  · intro word
    obtain ⟨hword, hlanes⟩ := nonzeroBytes_no_carry word
    exact ⟨hword, fun i hi => ⟨nonzeroBytes_lane_fits word hi, hlanes i⟩⟩
  · intro bytes i
    rw [byteAt_fromLeBytes _ (by decide) i.isLt, Vector.get_eq_getElem]

end MemchrN.Swar
