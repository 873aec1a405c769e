import MemchrN.Bitset.Classify
import MemchrN.Framework.Simulation

namespace MemchrN

abbrev tableWords : ℕ := 4

/-- An iterator over the members, with the bits of the current word not yet yielded. -/
structure ByteSetIter where
  set : ByteSet
  wordIndex : ℕ
  word : U64
  deriving DecidableEq

namespace ByteSet

/-- `set.word(i)`; an index past the table is a fault. -/
def wordAt (set : ByteSet) (i : ℕ) : Exec U64 :=
  if h : i < tableWords then pure (set.word ⟨i, h⟩) else throw .outOfBounds

def iter (set : ByteSet) : ByteSetIter where
  set := set
  wordIndex := 0
  word := set.word 0

/-- The members from word `i` on, as numbers. -/
def bitsFrom (set : ByteSet) (i : ℕ) : List ℕ :=
  ((List.finRange tableWords).drop i).flatMap fun i => (setBits (set.word i)).map (64 * i.val + ·)

end ByteSet

namespace ByteSetIter

/-- The loop of `next`: every turn that does not answer moves to the next word. -/
def nextFuel : ℕ → ByteSetIter → Exec (Option U8 × ByteSetIter)
  | 0, _ => throw .outOfFuel
  | fuel + 1, it => do
    if it.word ≠ 0#64 then
      let byte := BitVec.ofNat 8 (it.wordIndex * 64 + trailingZeros it.word)
      return (some byte, { it with word := clearLowest it.word })
    if it.wordIndex + 1 = tableWords then return (none, it)
    let word ← it.set.wordAt (it.wordIndex + 1)
    nextFuel fuel { it with wordIndex := it.wordIndex + 1, word := word }

def next (it : ByteSetIter) : Exec (Option U8 × ByteSetIter) := nextFuel tableWords it

def sizeHint (it : ByteSetIter) : ℕ × Option ℕ :=
  let remaining := ((List.finRange tableWords).drop (it.wordIndex + 1)).foldl
    (fun remaining i => remaining + countOnes (it.set.word i)) (countOnes it.word)
  (remaining, some remaining)

/-- The items `next` yields before `None`. -/
def collect (it : ByteSetIter) : Exec (List U8) := drain next (tableWords * 64 + 1) it

/-- The iterator is over this set and has not left its table. -/
structure Valid (set : ByteSet) (it : ByteSetIter) : Prop where
  set_eq : it.set = set
  index_lt : it.wordIndex < tableWords

/-- The members still to come: those left in the word, then those of the later words. -/
def pending (it : ByteSetIter) : List U8 :=
  ((setBits it.word).map (64 * it.wordIndex + ·) ++ it.set.bitsFrom (it.wordIndex + 1)).map
    (BitVec.ofNat 8)

end ByteSetIter

namespace ByteSet

variable {set : ByteSet} {i : ℕ}

theorem bitsFrom_zero : set.bitsFrom 0 = set.memberBits := set.memberBits_eq_words.symm

theorem bitsFrom_succ (hi : i < tableWords) : set.bitsFrom i =
    (setBits (set.word ⟨i, hi⟩)).map (64 * i + ·) ++ set.bitsFrom (i + 1) := by
  rw [bitsFrom, List.drop_eq_getElem_cons (by simpa using hi), List.flatMap_cons,
    List.getElem_finRange]
  rfl

theorem bitsFrom_end : set.bitsFrom tableWords = [] := rfl

/-- Adding up the population counts of words counts their members. -/
theorem foldl_countOnes (words : List (Fin tableWords)) (n : ℕ) :
    words.foldl (fun remaining i => remaining + countOnes (set.word i)) n =
      n + (words.flatMap fun i => (setBits (set.word i)).map (64 * i.val + ·)).length := by
  induction words generalizing n with
  | nil => rfl
  | cons i words ih =>
    rw [List.foldl_cons, ih, List.flatMap_cons, List.length_append, List.length_map,
      ← countOnes_eq_length, Nat.add_assoc]

end ByteSet

namespace ByteSetIter

variable {set : ByteSet} {it : ByteSetIter}

theorem valid_iter : Valid set set.iter := ⟨rfl, Nat.zero_lt_succ 3⟩

theorem pending_iter : set.iter.pending = set.memberList := by
  rw [ByteSet.memberList, ← ByteSet.bitsFrom_zero, ByteSet.bitsFrom_succ (by decide)]
  rfl

theorem sizeHint_eq : it.sizeHint = (it.pending.length, some it.pending.length) := by
  have hcount : it.pending.length =
      countOnes it.word + (it.set.bitsFrom (it.wordIndex + 1)).length := by
    rw [pending, List.length_map, List.length_append, List.length_map, countOnes_eq_length]
  rw [sizeHint, ByteSet.foldl_countOnes, hcount]
  rfl

/-- One turn that finds a bit left in the word. -/
theorem pending_cons (hword : it.word ≠ 0#64) :
    it.pending = BitVec.ofNat 8 (it.wordIndex * 64 + trailingZeros it.word) ::
      { it with word := clearLowest it.word : ByteSetIter }.pending := by
  rw [pending, setBits_cons hword, Nat.mul_comm it.wordIndex]
  rfl

theorem nextFuel_spec (fuel : ℕ) (hvalid : Valid set it)
    (hfuel : tableWords ≤ it.wordIndex + fuel) :
    Returns (nextFuel fuel it) fun r =>
      r.1 = it.pending.head? ∧ Valid set r.2 ∧ r.2.pending = it.pending.tail := by
  have hindex := hvalid.index_lt
  induction fuel generalizing it with
  | zero => omega
  | succ fuel ih =>
    simp only [nextFuel, returns_bind, returns_ite, returns_pure]
    constructor
    · intro hword
      rw [pending_cons hword]
      exact ⟨rfl, ⟨hvalid.set_eq, hindex⟩, rfl⟩
    · intro hword
      have hempty : it.pending = (it.set.bitsFrom (it.wordIndex + 1)).map (BitVec.ofNat 8) := by
        rw [pending, not_not.mp hword, setBits_zero, List.map_nil, List.nil_append]
      constructor
      · intro hend
        rw [hend, ByteSet.bitsFrom_end, List.map_nil] at hempty
        simp only [hempty]
        exact ⟨rfl, hvalid, rfl⟩
      · intro hmore
        have hlt : it.wordIndex + 1 < tableWords := by omega
        rw [ByteSet.wordAt, dif_pos hlt, returns_pure, hempty, ByteSet.bitsFrom_succ hlt]
        exact ih ⟨hvalid.set_eq, hlt⟩ (by dsimp only; omega) hlt

/-- `next` takes the members one by one from those still to come. -/
theorem next_streams (set : ByteSet) :
    Streams next fun it l => Valid set it ∧ it.pending = l := by
  intro it l _ hs
  obtain ⟨hvalid, rfl⟩ := hs
  exact nextFuel_spec tableWords hvalid (Nat.le_add_left _ _)

theorem collect_spec (set : ByteSet) : Returns set.iter.collect (· = set.memberList) := by
  have hlen : set.memberList.length < tableWords * 64 + 1 := by
    rw [ByteSet.memberList, List.length_map]
    exact Nat.lt_succ_of_le ((List.length_filter_le _ _).trans_eq (List.length_range))
  exact (next_streams set).drain hlen ⟨valid_iter, pending_iter⟩

/-- The iterator yields the members in ascending order and then `None` forever, and tells at every
point how many are left. Collecting them gives the set back, and sorts any list of bytes. -/
theorem iter_is_ascending (set : ByteSet) :
    (∃ members : List U8, members.Pairwise (· < ·) ∧ (∀ b, b ∈ members ↔ set.contains b = true) ∧
      (∀ calls, ∃ it, callAll next calls set.iter = .ok ((List.range calls).map (members[·]?), it) ∧
        it.sizeHint = ((members.drop calls).length, some (members.drop calls).length)) ∧
      set.iter.collect = .ok members ∧ ByteSet.fromIter members = set) ∧
    ∀ l : List U8, ∃ sorted, (ByteSet.fromBytes l).iter.collect = .ok sorted ∧
      sorted.Pairwise (· < ·) ∧ ∀ b, b ∈ sorted ↔ b ∈ l := by
  constructor
  · refine ⟨set.memberList, set.memberList_sorted, set.mem_memberList, ?_,
      returns_eq (collect_spec set), ?_⟩
    · intro calls
      obtain ⟨⟨answers, it⟩, hrun, rfl, -, hpending⟩ :=
        (next_streams set).callAll calls ⟨valid_iter, pending_iter⟩
      refine ⟨it, hrun, ?_⟩
      rw [sizeHint_eq, hpending]
    · apply ByteSet.ext_of_contains
      intro b
      rw [ByteSet.contains_fromIter, Bool.eq_iff_iff, decide_eq_true_eq, ByteSet.mem_memberList]
  · intro l
    refine ⟨_, returns_eq (collect_spec (ByteSet.fromBytes l)), ByteSet.memberList_sorted _, ?_⟩
    intro b
    rw [ByteSet.mem_memberList, ByteSet.contains_fromBytes, decide_eq_true_eq]

end ByteSetIter

end MemchrN
