import MemchrN.Framework.Simulation
import MemchrN.Searcher.Select

namespace MemchrN

/-- What becomes of a range that has run out. The standard library says nothing of its ends, and of
its bounds only that they contain nothing. -/
structure Leftover where
  start : U8
  last : U8
  bounds : RangeBounds
  contains_eq : ∀ b, bounds.contains b = false

/-- `RangeInclusive<u8>`, which is also an iterator. -/
inductive RangeInclusive
  | iterating (start last : U8)
  | exhausted (left : Leftover)

namespace RangeInclusive

def start : RangeInclusive → U8
  | iterating start _ => start
  | exhausted left => left.start

/-- `RangeInclusive::end`. -/
def last : RangeInclusive → U8
  | iterating _ last => last
  | exhausted left => left.last

def isExhausted : RangeInclusive → Bool
  | iterating _ _ => false
  | exhausted _ => true

/-- `RangeBounds` for the range. -/
def bounds : RangeInclusive → RangeBounds
  | iterating start last => ⟨.included start, .included last⟩
  | exhausted left => left.bounds

/-- One byte off the front. A call that takes the last one, or finds none, leaves `left`. -/
def next (left : Leftover) : RangeInclusive → Option U8 × RangeInclusive
  | iterating start last =>
    if start < last then (some start, iterating (start + 1) last)
    else (if start = last then some start else none, exhausted left)
  | exhausted _ => (none, exhausted left)

def nextBack (left : Leftover) : RangeInclusive → Option U8 × RangeInclusive
  | iterating start last =>
    if start < last then (some last, iterating start (last - 1))
    else (if start = last then some last else none, exhausted left)
  | exhausted _ => (none, exhausted left)

end RangeInclusive

namespace ByteSet

/-- `add_range` and `remove_range`, which read nothing but the ends. -/
def addRangeInclusive (set : ByteSet) (range : RangeInclusive) : ByteSet :=
  set.addRange range.start range.last

def removeRangeInclusive (set : ByteSet) (range : RangeInclusive) : ByteSet :=
  set.removeRange range.start range.last

end ByteSet

/-- A call, with what it leaves if the range runs out. -/
inductive RangeCall
  | next (left : Leftover)
  | nextBack (left : Leftover)

def RangeInclusive.perform (range : RangeInclusive) : RangeCall → Option U8 × RangeInclusive
  | .next left => range.next left
  | .nextBack left => range.nextBack left

/-- The bytes still to come, taken from either end. -/
def RangeCall.onList (l : List U8) : RangeCall → Option U8 × List U8
  | next _ => (l.head?, l.tail)
  | nextBack _ => (l.getLast?, l.dropLast)

/-- The `n` bytes from `start` on. -/
def bytesFrom (start n : ℕ) : List U8 := (List.range' start n).map (BitVec.ofNat 8)

theorem bytesFrom_succ (start n : ℕ) :
    bytesFrom start (n + 1) = BitVec.ofNat 8 start :: bytesFrom (start + 1) n := by
  rw [bytesFrom, List.range'_succ, List.map_cons, bytesFrom]

theorem bytesFrom_concat (start n : ℕ) :
    bytesFrom start (n + 1) = bytesFrom start n ++ [BitVec.ofNat 8 (start + n)] := by
  rw [bytesFrom, List.range'_1_concat, List.map_append, bytesFrom, List.map_singleton]

namespace RangeInclusive

/-- The bytes that the iterator has still to yield. -/
def remaining : RangeInclusive → List U8
  | iterating start last => bytesFrom start.toNat (last.toNat + 1 - start.toNat)
  | exhausted _ => []

section Ends

variable {start last : U8}

theorem mem_remaining (b : U8) : b ∈ (iterating start last).remaining ↔ start ≤ b ∧ b ≤ last := by
  have hb := b.isLt
  have hlast := last.isLt
  rw [remaining, bytesFrom, List.mem_map, BitVec.le_def, BitVec.le_def]
  constructor
  · intro h
    obtain ⟨n, hn, rfl⟩ := h
    rw [List.mem_range'_1] at hn
    rw [BitVec.toNat_ofNat, Nat.mod_eq_of_lt (by omega)]
    omega
  · intro h
    exact ⟨b.toNat, List.mem_range'_1.mpr (by omega), by simp⟩

theorem remaining_head (h : start < last) :
    (iterating start last).remaining = start :: (iterating (start + 1) last).remaining := by
  have hlt := BitVec.lt_def.mp h
  have hlast := last.isLt
  have hstep : (start + 1).toNat = start.toNat + 1 := by
    rw [BitVec.toNat_add]
    exact Nat.mod_eq_of_lt (by simp; omega)
  have hcount : last.toNat + 1 - start.toNat = last.toNat + 1 - (start.toNat + 1) + 1 := by omega
  rw [remaining, remaining, hstep, hcount, bytesFrom_succ, BitVec.ofNat_toNat, BitVec.setWidth_eq]

theorem remaining_last (h : start < last) :
    (iterating start last).remaining = (iterating start (last - 1)).remaining ++ [last] := by
  have hlt := BitVec.lt_def.mp h
  have hstep : (last - 1).toNat = last.toNat - 1 :=
    BitVec.toNat_sub_of_le (BitVec.le_def.mpr (by simp; omega))
  have hcount : last.toNat + 1 - start.toNat = last.toNat - 1 + 1 - start.toNat + 1 := by omega
  have hend : start.toNat + (last.toNat - 1 + 1 - start.toNat) = last.toNat := by omega
  rw [remaining, remaining, hstep, hcount, bytesFrom_concat, hend, BitVec.ofNat_toNat,
    BitVec.setWidth_eq]

/-- Ends that do not leave two bytes leave one when they meet, and none when they have crossed. -/
theorem remaining_short (h : ¬start < last) :
    (iterating start last).remaining = if start = last then [start] else [] := by
  have hle := BitVec.le_def.mp (BitVec.not_lt.mp h)
  split_ifs with hsame
  · subst hsame
    rw [remaining, Nat.add_sub_cancel_left, bytesFrom_succ, BitVec.ofNat_toNat, BitVec.setWidth_eq]
    rfl
  · have hne : last.toNat ≠ start.toNat := fun h => hsame (BitVec.eq_of_toNat_eq h.symm)
    rw [remaining, show last.toNat + 1 - start.toNat = 0 by omega]
    rfl

end Ends

variable (range : RangeInclusive) (left : Leftover)

theorem next_spec : (range.next left).1 = range.remaining.head? ∧
    (range.next left).2.remaining = range.remaining.tail := by
  cases range with
  | exhausted _ => exact ⟨rfl, rfl⟩
  | iterating start last =>
    rw [next]
    split_ifs with hmore hsame
    · rw [remaining_head hmore]
      exact ⟨rfl, rfl⟩
    · rw [remaining_short hmore, if_pos hsame]
      exact ⟨rfl, rfl⟩
    · rw [remaining_short hmore, if_neg hsame]
      exact ⟨rfl, rfl⟩

theorem nextBack_spec : (range.nextBack left).1 = range.remaining.getLast? ∧
    (range.nextBack left).2.remaining = range.remaining.dropLast := by
  cases range with
  | exhausted _ => exact ⟨rfl, rfl⟩
  | iterating start last =>
    rw [nextBack]
    split_ifs with hmore hsame
    · rw [remaining_last hmore, List.getLast?_concat, List.dropLast_concat]
      exact ⟨rfl, rfl⟩
    · rw [remaining_short hmore, if_pos hsame, hsame]
      exact ⟨rfl, rfl⟩
    · rw [remaining_short hmore, if_neg hsame]
      exact ⟨rfl, rfl⟩

theorem perform_spec (call : RangeCall) : (range.perform call).1 = (call.onList range.remaining).1 ∧
    (range.perform call).2.remaining = (call.onList range.remaining).2 := by
  cases call with
  | next left => exact range.next_spec left
  | nextBack left => exact range.nextBack_spec left

theorem contains_bounds (b : U8) : range.bounds.contains b = decide (b ∈ range.remaining) := by
  cases range with
  | iterating start last =>
    rw [Bool.eq_iff_iff, decide_eq_true_eq, mem_remaining]
    simp [bounds, RangeBounds.contains, Bound.startAdmits, Bound.endAdmits]
  | exhausted left => exact left.contains_eq b

end RangeInclusive

namespace ByteSet

variable (set : ByteSet) (range : RangeInclusive)

theorem contains_addRangeInclusive (b : U8) : (set.addRangeInclusive range).contains b =
    (decide (range.start ≤ b ∧ b ≤ range.last) || set.contains b) :=
  set.contains_addByteRange b ⟨range.start, range.last⟩

theorem contains_removeRangeInclusive (b : U8) : (set.removeRangeInclusive range).contains b =
    (set.contains b && !decide (range.start ≤ b ∧ b ≤ range.last)) := by
  rw [removeRangeInclusive, removeRange, addRange, contains_difference, contains_addByteRange,
    contains_new, Bool.or_false]

theorem contains_removeAll (items : List U8) (b : U8) :
    (items.foldl remove set).contains b = (set.contains b && !decide (b ∈ items)) := by
  induction items generalizing set with
  | nil => simp
  | cons a items ih =>
    rw [List.foldl_cons, ih, contains_remove]
    by_cases hba : b = a
    · simp [hba]
    · simp [hba, bne_iff_ne.mpr hba]

variable {range}

/-- Adding a range that has not run out is adding the bytes left in it. -/
theorem addRangeInclusive_eq (h : range.isExhausted = false) :
    set.addRangeInclusive range = set.extend range.remaining := by
  cases range with
  | exhausted _ => cases h
  | iterating start last =>
    apply ext_of_contains
    intro b
    rw [contains_addRangeInclusive, contains_extend]
    simp only [RangeInclusive.mem_remaining]
    rfl

theorem removeRangeInclusive_eq (h : range.isExhausted = false) :
    set.removeRangeInclusive range = range.remaining.foldl remove set := by
  cases range with
  | exhausted _ => cases h
  | iterating start last =>
    apply ext_of_contains
    intro b
    rw [contains_removeRangeInclusive, contains_removeAll]
    simp only [RangeInclusive.mem_remaining]
    rfl

end ByteSet

theorem Searcher.fromRangeWithBackend_remaining [Target] [Host] (range : RangeInclusive)
    (backend : Backend) : fromRangeWithBackend range.bounds backend =
      newWithBackend range.remaining backend := by
  apply fromRangeWithBackend_eq
  intro b
  rw [ByteSet.contains_fromBytes, range.contains_bounds]

/-- A range that has been iterated from either end, for any number of calls and whatever the
standard library leaves of it when it runs out: a searcher made of it is the one made of the bytes
it has still to yield, so none once it is exhausted. Adding it to a set or removing it goes by its
ends alone, which until then is byte by byte what it has still to yield. -/
theorem range_is_what_is_left [Target] [Host] (start last : U8) (calls : List RangeCall) :
    ∃ answers range rest,
      specAll RangeInclusive.perform calls (.iterating start last) = (answers, range) ∧
      specAll RangeCall.onList calls (RangeInclusive.iterating start last).remaining =
        (answers, rest) ∧
      (∀ b, b ∈ (RangeInclusive.iterating start last).remaining ↔ start ≤ b ∧ b ≤ last) ∧
      (range.isExhausted = true → rest = []) ∧
      (∀ backend, Searcher.fromRangeWithBackend range.bounds backend =
        Searcher.newWithBackend rest backend) ∧
      Searcher.fromRange range.bounds = Searcher.fromIter rest ∧
      ∀ set : ByteSet,
        (∀ b, (set.addRangeInclusive range).contains b = true ↔
          set.contains b = true ∨ range.start ≤ b ∧ b ≤ range.last) ∧
        (∀ b, (set.removeRangeInclusive range).contains b = true ↔
          set.contains b = true ∧ ¬(range.start ≤ b ∧ b ≤ range.last)) ∧
        (range.isExhausted = false → set.addRangeInclusive range = set.extend rest ∧
          set.removeRangeInclusive range = rest.foldl ByteSet.remove set) := by
  rcases hrange : specAll RangeInclusive.perform calls (.iterating start last) with ⟨answers, range⟩
  rcases hlist : specAll RangeCall.onList calls (RangeInclusive.iterating start last).remaining with
    ⟨answers', rest⟩
  obtain ⟨hanswers, hrest⟩ := specAll_eq (R := fun (range : RangeInclusive) l => range.remaining = l)
    (fun range l call h => h ▸ range.perform_spec call) calls
    (rfl : (RangeInclusive.iterating start last).remaining = _)
  rw [hrange, hlist] at hanswers hrest
  obtain rfl : answers = answers' := hanswers
  obtain rfl : range.remaining = rest := hrest
  refine ⟨answers, range, _, rfl, rfl, RangeInclusive.mem_remaining, ?_, ?_, ?_, ?_⟩
  · intro hexhausted
    cases range with
    | iterating _ _ => cases hexhausted
    | exhausted _ => rfl
  · intro backend
    exact Searcher.fromRangeWithBackend_remaining range backend
  · exact Searcher.fromRangeWithBackend_remaining range .auto
  · intro set
    refine ⟨?_, ?_, ?_⟩
    · intro b
      rw [set.contains_addRangeInclusive, Bool.or_eq_true, decide_eq_true_eq, or_comm]
    · intro b
      rw [set.contains_removeRangeInclusive, Bool.and_eq_true, Bool.not_eq_true',
        decide_eq_false_iff_not]
    · intro hfresh
      exact ⟨set.addRangeInclusive_eq hfresh, set.removeRangeInclusive_eq hfresh⟩

-- an exhausted range may still add bytes
example : let left : Leftover := ⟨0, 255, ⟨.included 1, .included 0⟩, by decide⟩
    let range := ((RangeInclusive.iterating 5 5).next left).2
    range.remaining = [] ∧ (ByteSet.new.addRangeInclusive range).contains 200 = true := by
  decide +kernel

end MemchrN
