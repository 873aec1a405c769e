import MemchrN.Search.Lookups
import MemchrN.Vector.Level

namespace MemchrN.Simd

/-- `matchesChunk` tests a vector lane by lane, `matchesByte` one byte. -/
class Kernel (K : Type) where
  matchesChunk : [Target] → K → Level → (w : Width) → Vector U8 w.lanes → Vector Bool w.lanes
  matchesByte : K → U8 → Bool

/-- The lanes selected are exactly the ones the scalar test accepts. -/
def Lawful [Target] {K : Type} [Kernel K] (level : Level) (kernel : K) : Prop :=
  ∀ (w : Width) (chunk : Vector U8 w.lanes),
    Kernel.matchesChunk kernel level w chunk = chunk.map (Kernel.matchesByte kernel)

section Lanes

variable {n : ℕ}

/-- `block_splat`: the same block in every 16 lanes. -/
def blockSplat (w : Width) (block : Vector U8 16) : Vector U8 w.lanes :=
  Vector.ofFn fun i => block[i.val % 16]

def simdEq (a b : Vector U8 n) : Vector Bool n := a.zipWith (· == ·) b

def simdLe (a b : Vector U8 n) : Vector Bool n := a.zipWith (fun x y => decide (x ≤ y)) b

def simdAnd (a b : Vector U8 n) : Vector U8 n := a.zipWith (· &&& ·) b

def simdSub (a b : Vector U8 n) : Vector U8 n := a.zipWith (· - ·) b

def maskNot (m : Vector Bool n) : Vector Bool n := m.map (!·)

def combine (a b : Vector U8 n) : Vector U8 (n + n) := a ++ b

def split (v : Vector U8 (n + n)) : Vector U8 n × Vector U8 n :=
  (Vector.ofFn fun i => v[i.val], Vector.ofFn fun i => v[n + i.val])

end Lanes

structure AnyOf (N : ℕ) where
  splattedNeedles : Vector (Vector U8 16) N
  deriving DecidableEq

namespace AnyOf

variable {N : ℕ}

def new (needles : Vector U8 N) : AnyOf N := ⟨needles.map fun needle => Vector.replicate 16 needle⟩

instance : Kernel (AnyOf N) where
  matchesChunk k _ w chunk := k.splattedNeedles.toList.foldl
    (fun matched needle => maskOr matched (simdEq chunk (blockSplat w needle)))
    (Vector.replicate w.lanes false)
  matchesByte k byte := k.splattedNeedles.toList.any fun needle => needle.head == byte

end AnyOf

structure NotByte where
  splattedByte : Vector U8 16
  deriving DecidableEq

namespace NotByte

def new (byte : U8) : NotByte := ⟨Vector.replicate 16 byte⟩

instance : Kernel NotByte where
  matchesChunk k _ w chunk := maskNot (simdEq chunk (blockSplat w k.splattedByte))
  matchesByte k byte := byte != k.splattedByte.head

end NotByte

/-- The start and the span `last - start`, in every lane of a block. -/
structure OneRange where
  splattedStart : Vector U8 16
  splattedSpan : Vector U8 16
  deriving DecidableEq

namespace OneRange

def new (range : ByteRange) : OneRange :=
  ⟨Vector.replicate 16 range.start, Vector.replicate 16 (range.last - range.start)⟩

instance : Kernel OneRange where
  matchesChunk k _ w chunk :=
    let shifted := simdSub chunk (blockSplat w k.splattedStart)
    simdLe shifted (blockSplat w k.splattedSpan)
  matchesByte k byte :=
    let start := k.splattedStart.head
    let span := k.splattedSpan.head
    decide (byte - start ≤ span)

end OneRange

structure SmallSet where
  loLookup : NibbleLookup
  hiLookup : NibbleLookup
  deriving DecidableEq

instance : Kernel SmallSet where
  matchesChunk k level w chunk :=
    let loLookup := blockSplat w k.loLookup.table
    let hiLookup := blockSplat w k.hiLookup.table
    let lo := level.swizzleDynWithinBlocks loLookup (chunk.map (· &&& 0x0F#8))
    let hi := level.swizzleDynWithinBlocks hiLookup (chunk.map fun b : U8 => b >>> 4)
    maskNot (simdEq (simdAnd lo hi) (Vector.replicate w.lanes 0#8))
  matchesByte k byte := sharesGroup k.loLookup k.hiLookup byte

structure FixedNibbleSet where
  table : FixedNibbleTable
  deriving DecidableEq

instance : Kernel FixedNibbleSet where
  matchesChunk k level w chunk :=
    let table := blockSplat w k.table.table
    let nonConstNibbles := match k.table.fixedNibble with
      | .low => chunk.map fun b : U8 => b >>> 4
      | .high => chunk.map (· &&& 0x0F#8)
    let shouldMatch := level.swizzleDynWithinBlocks table nonConstNibbles
    simdEq chunk shouldMatch
  matchesByte k byte := k.table.holds byte

/-- `vqtbl2q_u8`: a two-register lookup, zero for an index past the table. -/
def aarch64Swizzle32To16 (table : Vector U8 32) (idx : Vector U8 16) : Vector U8 16 :=
  idx.map fun i => table[i.toNat]?.getD 0

/-- The table byte holding each byte's membership bit, from the byte's high five bits. -/
def lookupMembershipBytes [Target] (level : Level) (byteSet : ByteSet) :
    (w : Width) → Vector U8 w.lanes → Vector U8 w.lanes
  | .w16, indices =>
    if Target.arch = .aarch64 ∧ level.asNeon then aarch64Swizzle32To16 byteSet.table indices
    else (split (level.swizzleDyn byteSet.table (combine indices indices))).1
  | .w32, indices => level.swizzleDyn byteSet.table indices
  | .w64, indices =>
    if level.nativeWidth.lanes ≥ 64 then
      level.swizzleDyn (combine byteSet.table byteSet.table) indices
    else
      let halves := split indices
      combine (level.swizzleDyn byteSet.table halves.1) (level.swizzleDyn byteSet.table halves.2)

instance : Kernel BitsetLookup where
  matchesChunk k level w chunk :=
    let bits := blockSplat w (Vector.ofFn fun i => 1#8 <<< (i.val % 8))
    let bit := level.swizzleDynWithinBlocks bits (chunk.map (· &&& 0b0111#8))
    let membership := lookupMembershipBytes level k.byteSet w (chunk.map fun b : U8 => b >>> 3)
    maskNot (simdEq (simdAnd bit membership) (Vector.replicate w.lanes 0#8))
  matchesByte k byte := k.contains byte

section Lanes

variable {n i : ℕ} (a b : Vector U8 n) (v : Vector U8 (n + n))

theorem getElem?_combine_left (hi : i < n) : (combine a b)[i]? = some a[i] := by
  simp [combine, Vector.getElem?_append, hi]

theorem getElem?_combine_right (hi : i < n) : (combine a b)[n + i]? = some b[i] := by
  simp [combine, hi]

theorem getElem?_split_fst (hi : i < n) : (split v).1[i]? = v[i]? := by
  simp [split, hi, show i < n + n by omega]

theorem getElem?_split_snd (hi : i < n) : (split v).2[i]? = v[n + i]? := by
  simp [split, hi, show n + i < n + n by omega]

end Lanes

section Lemmas

variable {N i : ℕ} {w : Width} (level : Level)

@[simp] theorem getElem_blockSplat (block : Vector U8 16) (hi : i < w.lanes) :
    (blockSplat w block)[i] = block[i % 16] := by simp [blockSplat]

theorem blockSplat_replicate (byte : U8) :
    blockSplat w (Vector.replicate 16 byte) = Vector.replicate w.lanes byte := by
  ext i hi : 1
  simp

/-- A shuffle of a repeated block looks every lane up in that block. -/
theorem getElem_swizzle_blockSplat (block : Vector U8 16) (idx : Vector U8 w.lanes)
    (hi : i < w.lanes) (hidx : idx[i].toNat < 16) :
    (level.swizzleDynWithinBlocks (blockSplat w block) idx)[i] = block[idx[i].toNat] := by
  have hfit : i / 16 * 16 + idx[i].toNat < w.lanes := by
    rcases w.lanes_eq with h | h | h <;> omega
  have h := level.swizzleDynWithinBlocks_lane (blockSplat w block) idx i hi hidx hfit
  rw [Vector.getElem?_eq_getElem hi, Vector.getElem?_eq_getElem hfit, Option.some.injEq] at h
  rw [h, getElem_blockSplat]
  congr 1
  omega

/-- The first lane of a splatted block. -/
@[simp] theorem head_replicate (byte : U8) : (Vector.replicate 16 byte).head = byte := rfl

theorem anyOf_matchesByte (needles : Vector U8 N) (byte : U8) :
    Kernel.matchesByte (AnyOf.new needles) byte = decide (byte ∈ needles.toList) := by
  simp only [Kernel.matchesByte, AnyOf.new, Vector.toList_map, List.any_map, Function.comp_def,
    head_replicate]
  rw [Bool.eq_iff_iff, decide_eq_true_eq, List.any_eq_true]
  simp

theorem notByte_matchesByte (excluded byte : U8) :
    Kernel.matchesByte (NotByte.new excluded) byte = (byte != excluded) := by
  simp [Kernel.matchesByte, NotByte.new]

theorem oneRange_matchesByte (range : ByteRange) (byte : U8) :
    Kernel.matchesByte (OneRange.new range) byte =
      decide (byte - range.start ≤ range.last - range.start) := rfl

/-- A fixed-nibble kernel is found exactly for nonempty lists that share a nibble, and accepts
exactly their bytes; what fills an empty slot is no byte of that slot. -/
theorem fixedNibbleSet_is_exact (items : List U8) :
    ((extractFixedNibbleTable items).isSome = true ↔ items ≠ [] ∧
      ((∀ a ∈ items, ∀ b ∈ items, a &&& 0x0F#8 = b &&& 0x0F#8) ∨
        ∀ a ∈ items, ∀ b ∈ items, a >>> 4 = b >>> 4)) ∧
    ∀ t, extractFixedNibbleTable items = some t →
      (∀ byte, Kernel.matchesByte (FixedNibbleSet.mk t) byte = true ↔ byte ∈ items) ∧
      ∀ slot : Fin 16, (∀ item ∈ items, (t.variableNibble item).toNat ≠ slot) →
        (t.variableNibble (t.table.get slot)).toNat ≠ slot ∧
        ∀ byte, (t.variableNibble byte).toNat = slot →
          Kernel.matchesByte (FixedNibbleSet.mk t) byte = false := by
  obtain ⟨hsome, hexact⟩ := extractFixedNibbleTable_spec items
  refine ⟨hsome, ?_⟩
  intro t htable
  refine ⟨hexact t htable, ?_⟩
  intro slot hempty
  refine ⟨extractFixedNibbleTable_empty htable slot hempty, ?_⟩
  intro byte hslot
  apply Bool.eq_false_iff.mpr
  intro hmatch
  exact hempty byte ((hexact t htable byte).mp hmatch) hslot

variable [Target]

theorem anyOf_lawful (needles : Vector U8 N) : Lawful level (AnyOf.new needles) := by
  intro w chunk
  have hfold (needles : List U8) (matched : Vector Bool w.lanes) (i : ℕ) (hi : i < w.lanes) :
      ((needles.map fun needle => Vector.replicate 16 needle).foldl
        (fun matched needle => maskOr matched (simdEq chunk (blockSplat w needle))) matched)[i] =
      (matched[i] || decide (chunk[i] ∈ needles)) := by
    induction needles generalizing matched with
    | nil => simp
    | cons needle needles ih =>
      rw [List.map_cons, List.foldl_cons, ih]
      simp [maskOr, simdEq, blockSplat_replicate, Bool.or_assoc, Bool.beq_eq_decide_eq]
  ext i hi
  rw [Vector.getElem_map, anyOf_matchesByte]
  simp only [Kernel.matchesChunk, AnyOf.new, Vector.toList_map]
  rw [hfold]
  simp

theorem notByte_lawful (excluded : U8) : Lawful level (NotByte.new excluded) := by
  intro w chunk
  ext i hi
  simp [Kernel.matchesChunk, Kernel.matchesByte, NotByte.new, maskNot, simdEq, bne]

theorem oneRange_lawful (range : ByteRange) : Lawful level (OneRange.new range) := by
  intro w chunk
  ext i hi
  rw [Vector.getElem_map, oneRange_matchesByte]
  simp [Kernel.matchesChunk, OneRange.new, simdSub, simdLe]

theorem smallSet_lawful (k : SmallSet) : Lawful level k := by
  intro w chunk
  ext i hi
  have hlo := nibble_low_lt chunk[i]
  have hhi := nibble_high_lt chunk[i]
  simp only [Kernel.matchesChunk, Kernel.matchesByte, maskNot, simdEq, simdAnd, Vector.getElem_map,
    Vector.getElem_zipWith, Vector.getElem_replicate]
  rw [getElem_swizzle_blockSplat level _ _ hi (by simpa using hlo),
    getElem_swizzle_blockSplat level _ _ hi (by simpa using hhi)]
  simp [sharesGroup, bne]

theorem fixedNibbleSet_lawful (k : FixedNibbleSet) : Lawful level k := by
  intro w chunk
  ext i hi
  have hlo := nibble_low_lt chunk[i]
  have hhi := nibble_high_lt chunk[i]
  rcases k with ⟨⟨_ | _, table⟩⟩
  · simp only [Kernel.matchesChunk, Kernel.matchesByte, simdEq, Vector.getElem_map,
      Vector.getElem_zipWith, FixedNibbleTable.holds]
    rw [getElem_swizzle_blockSplat level _ _ hi (by simpa using hhi)]
    rw [BEq.comm]
    simp only [Vector.getElem_map]
  · simp only [Kernel.matchesChunk, Kernel.matchesByte, simdEq, Vector.getElem_map,
      Vector.getElem_zipWith, FixedNibbleTable.holds]
    rw [getElem_swizzle_blockSplat level _ _ hi (by simpa using hlo)]
    rw [BEq.comm]
    simp only [Vector.getElem_map]

omit [Target] in
theorem swizzleDyn_getElem? {n : ℕ} (table : Vector U8 n) {idx : Vector U8 n} {b : U8}
    (hidx : idx[i]? = some b) (hb : b.toNat < n) :
    (level.swizzleDyn table idx)[i]? = table[b.toNat]? := by
  obtain ⟨hi, rfl⟩ := Vector.getElem?_eq_some_iff.mp hidx
  exact level.swizzleDyn_lane table idx i hi hb

/-- Every width looks the same table byte up, whatever registers hold the table. -/
theorem getElem?_lookupMembershipBytes (byteSet : ByteSet) (indices : Vector U8 w.lanes) {b : U8}
    (hidx : indices[i]? = some b) (hb : b.toNat < 32) :
    (lookupMembershipBytes level byteSet w indices)[i]? = byteSet.table[b.toNat]? := by
  obtain ⟨hi, he⟩ := Vector.getElem?_eq_some_iff.mp hidx
  cases w with
  | w16 =>
    simp only [lookupMembershipBytes]
    split_ifs with h
    · simp only [aarch64Swizzle32To16, Vector.getElem?_map, hidx, Option.map_some,
        Vector.getElem?_eq_getElem hb, Option.getD_some]
    · rw [getElem?_split_fst _ hi]
      exact swizzleDyn_getElem? level _ (by rw [getElem?_combine_left _ _ hi, he]) hb
  | w32 => exact swizzleDyn_getElem? level _ hidx hb
  | w64 =>
    simp only [lookupMembershipBytes]
    split_ifs with h
    · rw [swizzleDyn_getElem? level _ hidx (hb.trans (by decide)), Vector.getElem?_eq_getElem hb]
      exact getElem?_combine_left _ _ hb
    · rcases Nat.lt_or_ge i 32 with hlow | hhigh
      · rw [getElem?_combine_left _ _ hlow, ← Vector.getElem?_eq_getElem hlow]
        exact swizzleDyn_getElem? level _ ((getElem?_split_fst _ hlow).trans hidx) hb
      · obtain ⟨k, rfl⟩ := Nat.exists_eq_add_of_le hhigh
        have hk : k < 32 := Nat.add_lt_add_iff_left.mp (show 32 + k < 32 + 32 from hi)
        rw [getElem?_combine_right _ _ hk, ← Vector.getElem?_eq_getElem hk]
        exact swizzleDyn_getElem? level _ ((getElem?_split_snd _ hk).trans hidx) hb

theorem bitsetLookup_lawful (k : BitsetLookup) : Lawful level k := by
  intro w chunk
  ext i hi
  have hsplit : ∀ b : U8, b >>> 3 = b / 8 ∧ b &&& 0b0111#8 = b % 8 := by decide
  have hindex := ByteSet.table_index_lt chunk[i]
  have hmod : (chunk[i] % 8).toNat < 8 := by
    rw [ByteSet.toNat_mod_eight]
    omega
  have hmembership := getElem?_lookupMembershipBytes level k.byteSet
    (chunk.map fun b : U8 => b >>> 3) (i := i) (by simp [hi, (hsplit _).1]) hindex
  rw [Vector.getElem?_eq_getElem hi, Vector.getElem?_eq_getElem hindex, Option.some.injEq]
    at hmembership
  simp only [Kernel.matchesChunk, Kernel.matchesByte, maskNot, simdEq, simdAnd, Vector.getElem_map,
    Vector.getElem_zipWith, Vector.getElem_replicate]
  rw [hmembership, getElem_swizzle_blockSplat level _ _ hi (by simp [(hsplit _).2]; omega),
    BitVec.and_comm]
  simp [BitsetLookup.contains, ByteSet.contains, bne, (hsplit _).2]

theorem Lawful.lane {K : Type} [Kernel K] {level : Level} {kernel : K} (hlaw : Lawful level kernel)
    (chunk : Vector U8 w.lanes) (i : Fin w.lanes) :
    (Kernel.matchesChunk kernel level w chunk).get i = Kernel.matchesByte kernel (chunk.get i) := by
  rw [hlaw, Vector.get_eq_getElem, Vector.get_eq_getElem, Vector.getElem_map]

/-- At every width each lane is the scalar test of its byte, and a table lookup with an index inside
the table gives the byte at that index on every path. -/
theorem vectorKernels_are_exact (w : Width) (chunk : Vector U8 w.lanes) (i : Fin w.lanes) :
    (∀ (N : ℕ) (needles : Vector U8 N),
      (Kernel.matchesChunk (AnyOf.new needles) level w chunk).get i =
        Kernel.matchesByte (AnyOf.new needles) (chunk.get i)) ∧
    (∀ excluded : U8, (Kernel.matchesChunk (NotByte.new excluded) level w chunk).get i =
      Kernel.matchesByte (NotByte.new excluded) (chunk.get i)) ∧
    (∀ range : ByteRange, (Kernel.matchesChunk (OneRange.new range) level w chunk).get i =
      Kernel.matchesByte (OneRange.new range) (chunk.get i)) ∧
    (∀ k : SmallSet, (Kernel.matchesChunk k level w chunk).get i =
      Kernel.matchesByte k (chunk.get i)) ∧
    (∀ k : FixedNibbleSet, (Kernel.matchesChunk k level w chunk).get i =
      Kernel.matchesByte k (chunk.get i)) ∧
    (∀ k : BitsetLookup, (Kernel.matchesChunk k level w chunk).get i =
      Kernel.matchesByte k (chunk.get i)) ∧
    ∀ (set : ByteSet) (indices : Vector U8 w.lanes) (h : (indices.get i).toNat < 32),
      (lookupMembershipBytes level set w indices).get i =
        set.table.get ⟨(indices.get i).toNat, h⟩ := by
  refine ⟨?_, ?_, ?_, ?_, ?_, ?_, ?_⟩
  · intro N needles
    exact (anyOf_lawful level needles).lane chunk i
  · intro excluded
    exact (notByte_lawful level excluded).lane chunk i
  · intro range
    exact (oneRange_lawful level range).lane chunk i
  · intro k
    exact (smallSet_lawful level k).lane chunk i
  · intro k
    exact (fixedNibbleSet_lawful level k).lane chunk i
  · intro k
    exact (bitsetLookup_lawful level k).lane chunk i
  · intro set indices h
    have hindex : indices[i.val]? = some (indices.get i) := by
      rw [Vector.getElem?_eq_getElem i.isLt, Vector.get_eq_getElem]
    have hlookup := getElem?_lookupMembershipBytes level set indices hindex h
    rw [Vector.getElem?_eq_getElem i.isLt, Vector.getElem?_eq_getElem h, Option.some.injEq]
      at hlookup
    rw [Vector.get_eq_getElem, Vector.get_eq_getElem, hlookup]

end Lemmas

end MemchrN.Simd
