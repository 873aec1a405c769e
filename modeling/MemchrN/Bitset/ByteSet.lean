import MemchrN.Framework.ByteLanes
import MemchrN.Framework.Chunks

namespace MemchrN

/-- An inclusive range of byte values; it is empty when `start` is past `last`. -/
structure ByteRange where
  start : U8
  last : U8
  deriving DecidableEq

/-- One membership bit a byte value, in 32 table bytes. -/
@[ext] structure ByteSet where
  table : Vector U8 32
  deriving DecidableEq

namespace ByteSet

theorem table_index_lt (byte : U8) : (byte / 8).toNat < 32 := by
  have := byte.isLt
  rw [BitVec.toNat_udiv]
  change byte.toNat / 8 < 32
  omega

def new : ByteSet := ⟨Vector.replicate 32 0⟩

def full : ByteSet := ⟨Vector.replicate 32 0xFF⟩

def contains (set : ByteSet) (byte : U8) : Bool :=
  have := table_index_lt byte
  set.table[(byte / 8).toNat] &&& (1#8 <<< (byte % 8).toNat) != 0

def add (set : ByteSet) (byte : U8) : ByteSet :=
  have := table_index_lt byte
  let mask := 1#8 <<< (byte % 8).toNat
  ⟨set.table.set (byte / 8).toNat (set.table[(byte / 8).toNat] ||| mask)⟩

def addAll (set : ByteSet) (bytes : List U8) : ByteSet := bytes.foldl add set

def fromBytes (bytes : List U8) : ByteSet := new.addAll bytes

def remove (set : ByteSet) (byte : U8) : ByteSet :=
  have := table_index_lt byte
  let mask := 1#8 <<< (byte % 8).toNat
  ⟨set.table.set (byte / 8).toNat (set.table[(byte / 8).toNat] &&& ~~~mask)⟩

def invert (set : ByteSet) : ByteSet := ⟨set.table.map (~~~·)⟩

def union (set other : ByteSet) : ByteSet := ⟨set.table.zipWith (· ||| ·) other.table⟩

def intersection (set other : ByteSet) : ByteSet := ⟨set.table.zipWith (· &&& ·) other.table⟩

def difference (set other : ByteSet) : ByteSet :=
  ⟨set.table.zipWith (fun a b => a &&& ~~~b) other.table⟩

def symmetricDifference (set other : ByteSet) : ByteSet :=
  ⟨set.table.zipWith (· ^^^ ·) other.table⟩

/-- `while i < end { table[i] = u8::MAX; i += 1; }`, with `count` turns left in the table. -/
def fillTable (table : Vector U8 32) (i : ℕ) : (count : ℕ) → i + count ≤ 32 → Vector U8 32
  | 0, _ => table
  | count + 1, h => fillTable (table.set i 0xFF) (i + 1) count (by omega)

theorem fill_between {first last : ℕ} (hfirst : first < 32) (hlast : last < 32) :
    first + 1 + (last - (first + 1)) ≤ 32 := by
  omega

def addByteRange (set : ByteSet) (range : ByteRange) : ByteSet :=
  if range.start > range.last then set
  else
    have hfirst := table_index_lt range.start
    have hlast := table_index_lt range.last
    let firstTableByte := (range.start / 8).toNat
    let lastTableByte := (range.last / 8).toNat
    let fromStart := 0xFF#8 <<< (range.start % 8).toNat
    let throughLast := 0xFF#8 >>> (7 - range.last % 8).toNat
    if firstTableByte = lastTableByte then
      ⟨set.table.set firstTableByte (set.table[firstTableByte] ||| (fromStart &&& throughLast))⟩
    else
      let table := set.table.set firstTableByte (set.table[firstTableByte] ||| fromStart)
      let table := fillTable table (firstTableByte + 1) (lastTableByte - (firstTableByte + 1))
        (fill_between hfirst hlast)
      ⟨table.set lastTableByte (table[lastTableByte] ||| throughLast)⟩

def addRange (set : ByteSet) (start last : U8) : ByteSet := set.addByteRange ⟨start, last⟩

def removeRange (set : ByteSet) (start last : U8) : ByteSet :=
  set.difference (new.addRange start last)

/-- `Extend` and `FromIterator` over the items an iterator yields. -/
def extend (set : ByteSet) (items : List U8) : ByteSet := items.foldl add set

def fromIter (items : List U8) : ByteSet := new.extend items

instance : Complement ByteSet := ⟨invert⟩
instance : OrOp ByteSet := ⟨union⟩
instance : AndOp ByteSet := ⟨intersection⟩
instance : XorOp ByteSet := ⟨symmetricDifference⟩
instance : Sub ByteSet := ⟨difference⟩

/-- The 64 membership bits of word `i`, lowest byte value first. -/
def word (set : ByteSet) (i : Fin 4) : U64 :=
  fromLeBytes 64 (Vector.ofFn fun j : Fin 8 => set.table[i.val * 8 + j.val])

def len (set : ByteSet) : ℕ := (List.finRange 4).foldl (fun len i => len + countOnes (set.word i)) 0

def isEmpty (set : ByteSet) : Bool := (List.finRange 4).all fun i => set.word i == 0

/-- The mathematical set a table stands for. -/
def members (set : ByteSet) : Set U8 := {b | set.contains b = true}

/-- Membership by number, the view every proof below takes. -/
def bit (set : ByteSet) (n : ℕ) : Bool :=
  if h : n < 256 then (set.table[n / 8]).getLsbD (n % 8) else false

variable (set other : ByteSet) (byte b : U8)

theorem and_one_shiftLeft_ne_zero (x : U8) (k : ℕ) (hk : k < 8) :
    (x &&& (1#8 <<< k) != 0) = x.getLsbD k := by
  have hbits : x &&& (1#8 <<< k) = if x.getLsbD k then 1#8 <<< k else 0#8 := by
    ext j hj
    by_cases hjk : j = k
    · subst hjk
      cases hx : x.getLsbD j <;> simp_all
    · have hone : (1#8 <<< k).getLsbD j = false := by
        rw [BitVec.getLsbD_shiftLeft]
        simp only [BitVec.getLsbD_one]
        grind
      rw [BitVec.getLsbD_eq_getElem hj] at hone
      cases hx : x.getLsbD k <;> simp [hone]
  have hne : 1#8 <<< k ≠ 0#8 := by
    intro h
    have := congrArg (·.getLsbD k) h
    simp [hk] at this
  rw [hbits]
  cases x.getLsbD k <;> simp [hne]

theorem toNat_div_eight : (byte / 8).toNat = byte.toNat / 8 := by
  rw [BitVec.toNat_udiv]
  rfl

theorem toNat_mod_eight : (byte % 8).toNat = byte.toNat % 8 := by
  rw [BitVec.toNat_umod]
  rfl

theorem contains_eq_bit : set.contains byte = set.bit byte.toNat := by
  have hb := byte.isLt
  rw [contains, and_one_shiftLeft_ne_zero _ _ (by rw [toNat_mod_eight]; omega), bit,
    dif_pos hb]
  simp only [toNat_div_eight, toNat_mod_eight]

theorem bit_eq_contains (n : ℕ) (hn : n < 256) : set.bit n = set.contains (BitVec.ofNat 8 n) := by
  rw [contains_eq_bit, BitVec.toNat_ofNat, Nat.mod_eq_of_lt hn]

theorem bit_of_lt {n : ℕ} (hn : n < 256) : set.bit n = (set.table[n / 8]).getLsbD (n % 8) := by
  rw [bit, dif_pos hn]

theorem bit_of_le (n : ℕ) (hn : 256 ≤ n) : set.bit n = false := by
  rw [bit, dif_neg (by omega)]

@[simp] theorem mem_members : b ∈ set.members ↔ set.contains b = true := Iff.rfl

end ByteSet

end MemchrN
