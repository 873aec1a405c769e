import MemchrN.Framework.ByteLanes
import MemchrN.Framework.Matches

namespace MemchrN

inductive Arch | x86 | aarch64 | other
  deriving DecidableEq, Repr

inductive Endian | little | big
  deriving DecidableEq, Repr

/-- What the crate is compiled for. -/
class Target where
  arch : Arch
  endian : Endian

/-- `to_ne_bytes`, the bytes of a word in memory order. -/
def toNeBytes [Target] (n : ℕ) {w : ℕ} (x : BitVec w) : Vector U8 n :=
  match Target.endian with
  | .little => toLeBytes n x
  | .big => (toLeBytes n x).reverse

/-- `u64::to_le`. -/
def toLe [Target] (x : U64) : U64 :=
  match Target.endian with
  | .little => x
  | .big => fromLeBytes 64 (toLeBytes 8 x).reverse

theorem toNeBytes_toLe [Target] (x : U64) : toNeBytes 8 (toLe x) = toLeBytes 8 x := by
  unfold toNeBytes toLe
  cases (Target.endian) with
  | little => rfl
  | big =>
    ext i hi : 1
    rw [Vector.getElem_reverse, toLeBytes, Vector.getElem_ofFn,
      byteAt_fromLeBytes _ (by decide) (by omega), Vector.getElem_reverse]
    simp only [show 8 - 1 - (8 - 1 - i) = i by omega]

/-- Bytes in a vector. -/
inductive Width | w16 | w32 | w64
  deriving DecidableEq, Repr

abbrev Width.lanes : Width → ℕ
  | .w16 => 16
  | .w32 => 32
  | .w64 => 64

theorem Width.lanes_eq (w : Width) : w.lanes = 16 ∨ w.lanes = 32 ∨ w.lanes = 64 := by
  cases w <;> decide

theorem Width.lanes_pos (w : Width) : 0 < w.lanes := by cases w <;> decide

theorem Width.lanes_le (w : Width) : w.lanes ≤ 64 := by cases w <;> decide

/-- A supported SIMD level: which instruction sets it can act as, its native vector, and its two
dynamic shuffles, which are only promised to select for indices inside the table. -/
structure Level where
  isFallback : Bool
  asSse2 : Bool
  asSse42 : Bool
  asAvx2 : Bool
  asNeon : Bool
  nativeWidth : Width
  swizzleDyn : {n : ℕ} → Vector U8 n → Vector U8 n → Vector U8 n
  swizzleDynWithinBlocks : {n : ℕ} → Vector U8 n → Vector U8 n → Vector U8 n
  swizzleDyn_lane : ∀ {n : ℕ} (table idx : Vector U8 n) (i : ℕ) (hi : i < n),
    idx[i].toNat < n → (swizzleDyn table idx)[i]? = table[idx[i].toNat]?
  swizzleDynWithinBlocks_lane : ∀ {n : ℕ} (table idx : Vector U8 n) (i : ℕ) (hi : i < n),
    idx[i].toNat < 16 → i / 16 * 16 + idx[i].toNat < n →
      (swizzleDynWithinBlocks table idx)[i]? = table[i / 16 * 16 + idx[i].toNat]?

/-- Shuffles that read zero for an index outside the table. -/
def Level.ofFlags (isFallback asSse2 asSse42 asAvx2 asNeon : Bool) (nativeWidth : Width) : Level where
  isFallback := isFallback
  asSse2 := asSse2
  asSse42 := asSse42
  asAvx2 := asAvx2
  asNeon := asNeon
  nativeWidth := nativeWidth
  swizzleDyn table idx := idx.map fun k => table[k.toNat]?.getD 0
  swizzleDynWithinBlocks {n} table idx := Vector.ofFn fun i : Fin n =>
    table[i.val / 16 * 16 + (idx.get i).toNat]?.getD 0
  swizzleDyn_lane table idx i hi h := by simp [hi, h]
  swizzleDynWithinBlocks_lane table idx i hi _ h := by simp [hi, h, Vector.get_eq_getElem]

/-- Shuffle-based kernels need a single-instruction dynamic byte shuffle. -/
def hasByteShuffle [Target] (level : Level) : Bool :=
  match Target.arch with
  | .x86 => level.asSse42
  | _ => !level.isFallback

section Masks

variable {n : ℕ}

/-- The byte lanes of a mask, all zeros or all ones. -/
def maskBytes (m : Vector Bool n) : Vector U8 n := m.map fun b => if b then 0xFF#8 else 0#8

/-- Lane `i` in bit `i`. -/
def toBitmask (m : Vector Bool n) : U64 := (BitVec.ofBoolListLE m.toList).setWidth 64

def anyTrue (m : Vector Bool n) : Bool := m.toList.any id

def maskOr (m m' : Vector Bool n) : Vector Bool n := m.zipWith (· || ·) m'

variable {m m' : Vector Bool n}

theorem bitSet_toBitmask (hn : n ≤ 64) : bitSet (toBitmask m) = trueLanes m := by
  ext i
  rw [mem_bitSet, toBitmask, BitVec.getLsbD_setWidth, BitVec.getLsbD_ofBoolListLE, mem_trueLanes]
  rcases Nat.lt_or_ge i n with hi | hi
  · simp [hi, show i < 64 by omega]
  · simp [Nat.not_lt.mpr hi]

theorem toBitmask_eq_zero (hn : n ≤ 64) : toBitmask m = 0#64 ↔ trueLanes m = ∅ := by
  rw [← bitSet_toBitmask hn, bitSet_eq_empty]

theorem anyTrue_eq_true : anyTrue m = true ↔ trueLanes m ≠ ∅ := by
  rw [anyTrue, List.any_eq_true, ← Set.nonempty_iff_ne_empty]
  constructor
  · intro h
    obtain ⟨b, hb, htrue⟩ := h
    obtain ⟨i, hi, rfl⟩ := Vector.getElem_of_mem (Vector.mem_toList_iff.mp hb)
    exact ⟨i, mem_trueLanes.mpr ⟨hi, htrue⟩⟩
  · intro h
    obtain ⟨i, hi⟩ := h
    obtain ⟨hlt, htrue⟩ := mem_trueLanes.mp hi
    exact ⟨m[i], Vector.mem_toList_iff.mpr (Vector.getElem_mem hlt), htrue⟩

theorem trueLanes_maskOr : trueLanes (maskOr m m') = trueLanes m ∪ trueLanes m' := by
  ext i
  simp only [Set.mem_union, mem_trueLanes, maskOr]
  by_cases hi : i < n <;> simp [hi]

end Masks

end MemchrN
