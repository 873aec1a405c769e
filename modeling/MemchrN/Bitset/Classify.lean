import MemchrN.Bitset.Words

namespace MemchrN.ByteSet

/-- Bit `lo` of row `hi` is the membership of the byte with these nibbles. -/
def nibbleRows (set : ByteSet) : Vector U16 16 :=
  Vector.ofFn fun hi : Fin 16 =>
    fromLeBytes 16 #v[set.table[hi.val * 2], set.table[hi.val * 2 + 1]]

/-- `(i * 64) as u8 + word.trailing_zeros() as u8`. -/
def memberByte (i : Fin 4) (tz : ℕ) : Exec U8 :=
  Exec.addWord (BitVec.ofNat 8 (i.val * 64)) (BitVec.ofNat 8 tz)

def excludedStep (set : ByteSet) (i : Fin 4) (excluded : Option U8) :
    Exec (Flow (Option U8) (Option U8)) := do
  let missing := ~~~set.word i
  if missing = 0#64 then return .next excluded
  if excluded.isSome ∨ countOnes missing ≠ 1 then return .ret none
  let byte ← memberByte i (trailingZeros missing)
  return .next (some byte)

def excludedByte (set : ByteSet) : Exec (Option U8) :=
  andThen (forEach set.excludedStep (List.finRange 4) none) fun excluded => pure excluded

/-- The running span of the members seen so far: first, last and number, as `u32`. -/
structure Span where
  first : Option ℕ
  last : ℕ
  count : ℕ

def spanStep (set : ByteSet) (i : Fin 4) (s : Span) : Exec (Flow (Option ByteRange) Span) := do
  let word := set.word i
  if word = 0#64 then return .next s
  let base := i.val * 64
  let first ← match s.first with
    | some first => pure first
    | none => Exec.add 32 base (trailingZeros word)
  let top ← Exec.add 32 base 64
  let top ← Exec.sub top 1
  let last ← Exec.sub top (leadingZeros word)
  let count ← Exec.add 32 s.count (countOnes word)
  return .next ⟨some first, last, count⟩

def asContiguousRange (set : ByteSet) : Exec (Option ByteRange) :=
  andThen (forEach set.spanStep (List.finRange 4) ⟨none, 0, 0⟩) fun s =>
    match s.first with
    | none => pure none
    | some first => do
      let span ← Exec.sub s.last first
      let span ← Exec.add 32 span 1
      if s.count ≠ span then return none
      return some ⟨BitVec.ofNat 8 first, BitVec.ofNat 8 s.last⟩

def memberStep {N : ℕ} (i : Fin 4) (tz : ℕ) (s : ℕ × Vector U8 N) :
    Exec (Flow (Option U8 × Vector U8 N) (ℕ × Vector U8 N)) := do
  let (count, members) := s
  if count = N then return .ret (none, members)
  let byte ← memberByte i tz
  let members ← Exec.setIndex members count byte
  return .next (count + 1, members)

/-- Fills the array with the members in ascending order, or gives up when it is too short. -/
def writeMembers (set : ByteSet) {N : ℕ} (members : Vector U8 N) :
    Exec (Option U8 × Vector U8 N) :=
  andThen
    (forEach (fun i => forSetBits (set.word i) (memberStep i)) (List.finRange 4) (0, members))
    fun (count, members) => pure (some (BitVec.ofNat 8 count), members)

variable (set : ByteSet)

theorem returns_memberByte {i : Fin 4} {tz : ℕ} (htz : tz < 64) (Q : U8 → Prop)
    (h : Q (BitVec.ofNat 8 (64 * i.val + tz))) : Returns (memberByte i tz) Q := by
  have hi := i.isLt
  rw [memberByte, Exec.returns_addWord, BitVec.toNat_ofNat, BitVec.toNat_ofNat,
    Nat.mod_eq_of_lt (by omega), Nat.mod_eq_of_lt (by omega), ← BitVec.ofNat_add,
    Nat.mul_comm i.val 64]
  exact ⟨by omega, h⟩

/-- The pairs of word index and bit position of the members, in the order of the loops. -/
def memberPairs : List (Fin 4 × ℕ) :=
  (List.finRange 4).flatMap fun i => (setBits (set.word i)).map (i, ·)

theorem memberBits_eq_pairs :
    set.memberBits = set.memberPairs.map fun it => 64 * it.1.val + it.2 := by
  rw [memberBits_eq_words, memberPairs, List.map_flatMap]
  simp only [List.map_map]
  rfl

theorem memberPairs_length : set.memberPairs.length = set.memberBits.length := by
  rw [memberBits_eq_pairs, List.length_map]

theorem memberPairs_lt {it : Fin 4 × ℕ} (h : it ∈ set.memberPairs) : it.2 < 64 := by
  simp only [memberPairs, List.mem_flatMap, List.mem_finRange, true_and, List.mem_map] at h
  obtain ⟨i, k, hk, rfl⟩ := h
  exact ((mem_setBits_word set i k).mp hk).1

/-- The members in ascending order, as bytes. -/
def memberList : List U8 := set.memberBits.map (BitVec.ofNat 8)

@[simp] theorem mem_memberList (b : U8) : b ∈ set.memberList ↔ set.contains b = true := by
  have h := Set.ext_iff.mp set.members_eq_image b
  simp only [mem_members, Set.mem_image, Set.mem_ofPred_eq] at h
  rw [memberList, List.mem_map]
  exact h.symm

theorem length_memberList : set.memberList.length = set.members.ncard := by
  rw [ncard_members, memberList, List.length_map]

theorem memberList_toNat : set.memberList.map BitVec.toNat = set.memberBits := by
  rw [memberList, List.map_map]
  refine (List.map_congr_left fun n hn => ?_).trans (List.map_id _)
  simp [Nat.mod_eq_of_lt (set.memberBits_lt hn)]

theorem memberList_sorted : set.memberList.Pairwise (· < ·) := by
  have h := set.memberBits_sorted
  rwa [← memberList_toNat, List.pairwise_map] at h

theorem writeMembers_eq {N : ℕ} (members : Vector U8 N) :
    set.writeMembers members =
      andThen (forEach (fun it => memberStep it.1 it.2) set.memberPairs (0, members))
        fun (count, members) => pure (some (BitVec.ofNat 8 count), members) := by
  have hword : (fun i => forSetBits (set.word i) (memberStep (N := N) i)) =
      fun i => forEach (memberStep i) (setBits (set.word i)) :=
    funext fun i => funext fun s => forSetBits_eq_forEach _ _ s
  rw [writeMembers, hword, forEach_flatMap, memberPairs]

theorem writeMembers_spec {N : ℕ} (members : Vector U8 N) :
    Returns (set.writeMembers members) fun r =>
      if set.memberList.length ≤ N then
        r.1 = some (BitVec.ofNat 8 set.memberList.length) ∧
          ∀ i (h : i < N) (h' : i < set.memberList.length), r.2[i] = set.memberList[i]
      else r.1 = none := by
  have hlen : set.memberPairs.length = set.memberList.length := by
    rw [memberPairs_length, memberList, List.length_map]
  have hget (i : ℕ) (h : i < set.memberPairs.length) (h' : i < set.memberList.length) :
      set.memberList[i] =
        BitVec.ofNat 8 (64 * set.memberPairs[i].1.val + set.memberPairs[i].2) := by
    simp only [memberList, memberBits_eq_pairs, List.getElem_map]
  rw [writeMembers_eq, returns_andThen]
  refine returns_mono (returns_forEach
    (fun k (s : ℕ × Vector U8 N) => s.1 = k ∧ k ≤ N ∧
      ∀ i (h : i < N) (h' : i < set.memberList.length), i < k → s.2[i] = set.memberList[i])
    (fun r => r.1 = none ∧ N < set.memberPairs.length) ⟨rfl, Nat.zero_le _, by omega⟩ ?_) ?_
  · intro k hk hs hq
    obtain ⟨count, ms⟩ := hs
    obtain ⟨rfl, hkN, hms⟩ := hq
    have hk' : count < set.memberPairs.length := hk
    simp only [memberStep, returns_ite, returns_pure, flow_sat_ret, returns_bind]
    refine ⟨fun hN => ⟨trivial, by omega⟩, fun hN => ?_⟩
    refine returns_memberByte (set.memberPairs_lt (List.getElem_mem hk)) _ ?_
    simp only [Exec.setIndex, dif_pos (show count < N by omega), returns_pure, flow_sat_next]
    refine ⟨trivial, by omega, fun i h h' hik => ?_⟩
    rw [Vector.getElem_set]
    split_ifs with hi
    · subst hi
      exact (hget count hk' h').symm
    · exact hms i h h' (by omega)
  · intro hd hf
    rcases hd with ⟨r, ms⟩ | ⟨count, ms⟩
    · obtain ⟨hr, hlt⟩ := hf
      rw [flow_sat_ret, if_neg (by omega)]
      exact hr
    · obtain ⟨hc, hN, hms⟩ := hf
      simp only [flow_sat_next, returns_pure]
      rw [if_pos (by omega)]
      exact ⟨by rw [← hlen, ← hc], fun i h h' => hms i h h' (by omega)⟩

/-- The members below `m`, as numbers. -/
def membersBelow (m : ℕ) : Set ℕ := {n | n < m ∧ set.bit n = true}

theorem membersBelow_zero : set.membersBelow 0 = ∅ := by simp [membersBelow]

theorem membersBelow_mono {m n : ℕ} (h : m ≤ n) : set.membersBelow m ⊆ set.membersBelow n :=
  fun _ hk => ⟨hk.1.trans_le h, hk.2⟩

theorem toNat_mem_membersBelow (b : U8) :
    b.toNat ∈ set.membersBelow 256 ↔ set.contains b = true := by
  rw [contains_eq_bit]
  exact and_iff_right b.isLt

theorem membersBelow_succ (i : Fin 4) :
    set.membersBelow (64 * (i.val + 1)) =
      set.membersBelow (64 * i.val) ∪ (64 * i.val + ·) '' bitSet (set.word i) := by
  ext n
  simp only [membersBelow, Set.mem_ofPred_eq, Set.mem_union, Set.mem_image, mem_bitSet]
  constructor
  · intro h
    obtain ⟨hn, hbit⟩ := h
    rcases Nat.lt_or_ge n (64 * i.val) with hlt | hge
    · exact .inl ⟨hlt, hbit⟩
    · refine .inr ⟨n - 64 * i.val, ?_, by omega⟩
      rwa [getLsbD_word _ _ _ (by omega), Nat.add_sub_cancel' hge]
  · intro hs
    rcases hs with ⟨hn, hbit⟩ | ⟨k, hk, rfl⟩
    · exact ⟨by omega, hbit⟩
    · have hlt := BitVec.lt_of_getLsbD hk
      exact ⟨by omega, by rwa [← getLsbD_word _ _ _ hlt]⟩

/-- The missing bits of a word are the members of the complement. -/
theorem word_invert (i : Fin 4) : set.invert.word i = ~~~set.word i := by
  apply BitVec.eq_of_getLsbD_eq
  intro k hk
  have hi := i.isLt
  rw [BitVec.getLsbD_not, getLsbD_word _ _ _ hk, getLsbD_word _ _ _ hk,
    bit_eq_contains _ _ (by omega), bit_eq_contains _ _ (by omega), contains_invert]
  simp [hk]

/-- What the loop of `excludedByte` knows of the missing bytes after `i` words. -/
def ExcludedInv (i : ℕ) : Option U8 → Prop
  | none => set.invert.membersBelow (64 * i) = ∅
  | some b => set.invert.membersBelow (64 * i) = {b.toNat}

def TwoMissing : Prop :=
  ∃ m n, m ≠ n ∧ m ∈ set.invert.membersBelow 256 ∧ n ∈ set.invert.membersBelow 256

variable {set} in
theorem twoMissing_of_word {i : Fin 4} {excluded : Option U8} (hinv : set.ExcludedInv i excluded)
    (hz : set.invert.word i ≠ 0#64)
    (h : excluded.isSome = true ∨ countOnes (set.invert.word i) ≠ 1) : set.TwoMissing := by
  have hle : 64 * (i.val + 1) ≤ 256 := by omega
  have hmem (k : ℕ) (hk : k ∈ bitSet (set.invert.word i)) :
      64 * i.val + k ∈ set.invert.membersBelow 256 := by
    refine set.invert.membersBelow_mono hle ?_
    rw [membersBelow_succ]
    exact .inr ⟨k, hk, rfl⟩
  have hfirst := hmem _ (isLeast_trailingZeros hz).1
  rcases h with hsome | hcount
  · obtain ⟨b, rfl⟩ := Option.isSome_iff_exists.mp hsome
    have hb : b.toNat ∈ set.invert.membersBelow (64 * i.val) := by
      rw [show set.invert.membersBelow (64 * i.val) = {b.toNat} from hinv]
      rfl
    refine ⟨b.toNat, _, ?_, set.invert.membersBelow_mono (by omega) hb, hfirst⟩
    have := hb.1
    omega
  · rw [countOnes_eq_length, setBits_cons hz, List.length_cons] at hcount
    have hrest : setBits (clearLowest (set.invert.word i)) ≠ [] := by
      intro h
      simp [h] at hcount
    obtain ⟨k, hk⟩ := List.exists_mem_of_ne_nil _ hrest
    have hk' : k ∈ bitSet (set.invert.word i) \ {trailingZeros (set.invert.word i)} := by
      rw [← bitSet_clearLowest hz]
      exact mem_setBits.mp hk
    refine ⟨_, _, ?_, hfirst, hmem k hk'.1⟩
    have := hk'.2
    simp only [Set.mem_singleton_iff] at this
    omega

theorem excludedStep_spec (i : Fin 4) (excluded : Option U8) (hinv : set.ExcludedInv i excluded) :
    Returns (set.excludedStep i excluded)
      (Flow.Sat (fun r => r = none ∧ set.TwoMissing) (set.ExcludedInv (i.val + 1))) := by
  simp only [excludedStep, ← word_invert, returns_ite, returns_pure, flow_sat_ret, flow_sat_next,
    returns_bind, not_or, not_not]
  refine ⟨fun hz => ?_, fun hz => ⟨fun h => ⟨trivial, twoMissing_of_word hinv hz h⟩, ?_⟩⟩
  · have hstep := set.invert.membersBelow_succ i
    rw [bitSet_eq_empty.mpr hz, Set.image_empty, Set.union_empty] at hstep
    cases excluded <;> exact hstep.trans hinv
  · intro hs
    obtain ⟨hnone, hone⟩ := hs
    have hi := i.isLt
    have hlt := trailingZeros_lt hz
    obtain rfl : excluded = none := by simpa using hnone
    refine returns_memberByte hlt _ ?_
    have hsingle : bitSet (set.invert.word i) = {trailingZeros (set.invert.word i)} := by
      rw [countOnes_clearLowest hz, Nat.add_eq_right, countOnes_eq_zero] at hone
      have hempty := bitSet_clearLowest hz
      rw [bitSet_eq_empty.mpr hone] at hempty
      refine Set.Subset.antisymm (Set.sdiff_eq_empty.mp hempty.symm) ?_
      exact Set.singleton_subset_iff.mpr (isLeast_trailingZeros hz).1
    rw [ExcludedInv, membersBelow_succ, show set.invert.membersBelow (64 * i.val) = ∅ from hinv,
      hsingle, Set.image_singleton, Set.empty_union, BitVec.toNat_ofNat,
      Nat.mod_eq_of_lt (by omega)]

theorem mem_missing (x : U8) :
    x.toNat ∈ set.invert.membersBelow 256 ↔ ¬set.contains x = true := by
  rw [toNat_mem_membersBelow, contains_invert, Bool.not_eq_true', Bool.not_eq_true]

variable {set} in
theorem TwoMissing.not_all_but (h : set.TwoMissing) (b : U8) :
    ¬∀ x, set.contains x = true ↔ x ≠ b := by
  intro hb
  have hbyte (m : ℕ) (hm : m ∈ set.invert.membersBelow 256) : m = b.toNat := by
    have hto : (BitVec.ofNat 8 m).toNat = m := by
      rw [BitVec.toNat_ofNat]
      exact Nat.mod_eq_of_lt hm.1
    have hmissing : ¬set.contains (BitVec.ofNat 8 m) = true := by rwa [← mem_missing, hto]
    rw [hb, ne_eq, not_not] at hmissing
    rw [← hmissing, hto]
  obtain ⟨m, n, hne, hm, hn⟩ := h
  exact hne ((hbyte m hm).trans (hbyte n hn).symm)

variable {set} in
/-- What the loop knows after the last word decides the question. -/
theorem ExcludedInv.iff {excluded : Option U8} (h : set.ExcludedInv 4 excluded) (b : U8) :
    excluded = some b ↔ ∀ x, set.contains x = true ↔ x ≠ b := by
  cases excluded with
  | none =>
    simp only [reduceCtorEq, false_iff]
    intro hb
    have hmem := (mem_missing set b).mpr fun hc => (hb b).mp hc rfl
    rw [show set.invert.membersBelow 256 = ∅ from h] at hmem
    exact hmem
  | some e =>
    have he (x : U8) : ¬set.contains x = true ↔ x = e := by
      rw [← mem_missing, show set.invert.membersBelow 256 = {e.toNat} from h,
        Set.mem_singleton_iff, BitVec.toNat_inj]
    constructor
    · intro hb x
      rw [← Option.some.inj hb, ne_eq, ← he, not_not]
    · intro hb
      exact congrArg some ((he b).mp fun hc => (hb b).mp hc rfl).symm

/-- `excludedByte` answers `b` exactly for the set of every byte but `b`. -/
theorem excludedByte_spec :
    Returns set.excludedByte fun r =>
      ∀ b, r = some b ↔ ∀ x, set.contains x = true ↔ x ≠ b := by
  have hstart : set.ExcludedInv 0 none := set.invert.membersBelow_zero
  rw [excludedByte, returns_andThen]
  apply returns_mono (returns_forEach_range set.ExcludedInv (fun r => r = none ∧ set.TwoMissing)
    hstart set.excludedStep_spec)
  intro flow hf
  cases flow with
  | ret r =>
    obtain ⟨rfl, htwo⟩ := hf
    simp only [flow_sat_ret, reduceCtorEq, false_iff]
    exact htwo.not_all_but
  | next excluded => exact (returns_pure _ _).mpr (ExcludedInv.iff hf)

theorem membersBelow_finite (m : ℕ) : (set.membersBelow m).Finite :=
  (Set.finite_lt_nat m).subset fun _ h => h.1

/-- What the loop of `asContiguousRange` knows after `i` words. -/
def SpanInv (i : ℕ) (s : Span) : Prop :=
  s.count = (set.membersBelow (64 * i)).ncard ∧
    match s.first with
    | none => set.membersBelow (64 * i) = ∅
    | some first => IsLeast (set.membersBelow (64 * i)) first ∧
        IsGreatest (set.membersBelow (64 * i)) s.last

theorem ncard_membersBelow_succ (i : Fin 4) :
    (set.membersBelow (64 * (i.val + 1))).ncard =
      (set.membersBelow (64 * i.val)).ncard + countOnes (set.word i) := by
  have hinj : Function.Injective (64 * i.val + ·) := fun a b h => Nat.add_left_cancel h
  have hdisj : Disjoint (set.membersBelow (64 * i.val))
      ((64 * i.val + ·) '' bitSet (set.word i)) := by
    rw [Set.disjoint_left]
    intro n hn hs
    obtain ⟨k, -, rfl⟩ := hs
    have := hn.1
    dsimp only at this
    omega
  rw [membersBelow_succ, Set.ncard_union_eq hdisj (set.membersBelow_finite _)
    ((bitSet_finite _).image _), Set.ncard_image_of_injective _ hinj, ncard_bitSet]

theorem ncard_membersBelow_le (m : ℕ) : (set.membersBelow m).ncard ≤ m := by
  have h := Set.ncard_le_ncard (show set.membersBelow m ⊆ Set.Iio m from fun _ h => h.1)
    (Set.finite_lt_nat m)
  rwa [Set.ncard_Iio_nat] at h

section Word

variable {set} {i : Fin 4}

/-- The last member so far lies in the word just read. -/
theorem isGreatest_membersBelow_succ (hz : set.word i ≠ 0#64) :
    IsGreatest (set.membersBelow (64 * (i.val + 1)))
      (i.val * 64 + 64 - 1 - leadingZeros (set.word i)) := by
  have hmono : Monotone (64 * i.val + ·) := fun a b h => Nat.add_le_add_left h _
  have hgreatest := hmono.map_isGreatest (isGreatest_leadingZeros hz)
  have hlz := leadingZeros_lt hz
  rw [membersBelow_succ]
  constructor
  · right
    convert hgreatest.1 using 1
    omega
  · intro n hn
    rcases hn with hold | hword
    · have hbelow := hold.1
      omega
    · have hle := hgreatest.2 hword
      omega

/-- The first member lies in the word just read when there was none before. -/
theorem isLeast_membersBelow_first (hz : set.word i ≠ 0#64)
    (hempty : set.membersBelow (64 * i.val) = ∅) :
    IsLeast (set.membersBelow (64 * (i.val + 1))) (i.val * 64 + trailingZeros (set.word i)) := by
  have hmono : Monotone (64 * i.val + ·) := fun a b h => Nat.add_le_add_left h _
  rw [membersBelow_succ, hempty, Set.empty_union, Nat.mul_comm i.val]
  exact hmono.map_isLeast (isLeast_trailingZeros hz)

theorem isLeast_membersBelow_succ {first : ℕ} (h : IsLeast (set.membersBelow (64 * i.val)) first) :
    IsLeast (set.membersBelow (64 * (i.val + 1))) first := by
  have hlow := h.1.1
  rw [membersBelow_succ]
  constructor
  · exact .inl h.1
  · intro n hn
    rcases hn with hold | ⟨k, -, rfl⟩
    · exact h.2 hold
    · show first ≤ 64 * i.val + k
      omega

end Word

theorem spanStep_spec (i : Fin 4) (s : Span) (hinv : set.SpanInv i s) :
    Returns (set.spanStep i s) (Flow.Sat (fun _ => False) (set.SpanInv (i.val + 1))) := by
  have hi := i.isLt
  obtain ⟨hcount, hends⟩ := hinv
  have hcard := set.ncard_membersBelow_succ i
  have hbound := set.ncard_membersBelow_le (64 * (i.val + 1))
  by_cases hz : set.word i = 0#64
  · have hsame := set.membersBelow_succ i
    rw [bitSet_eq_empty.mpr hz, Set.image_empty, Set.union_empty] at hsame
    simp only [spanStep, hz, if_true, returns_pure, flow_sat_next, SpanInv, hsame]
    exact ⟨hcount, hends⟩
  have htz := trailingZeros_lt hz
  have hlz := leadingZeros_lt hz
  have hsat (first : ℕ) (hf : IsLeast (set.membersBelow (64 * (i.val + 1))) first) :
      Returns (do
        let top ← Exec.add 32 (i.val * 64) 64
        let top ← Exec.sub top 1
        let last ← Exec.sub top (leadingZeros (set.word i))
        let count ← Exec.add 32 s.count (countOnes (set.word i))
        return (Flow.next ⟨some first, last, count⟩ : Flow (Option ByteRange) Span))
      (Flow.Sat (fun _ => False) (set.SpanInv (i.val + 1))) := by
    simp only [returns_bind, Exec.returns_add, Exec.returns_sub, returns_pure, flow_sat_next]
    refine ⟨by omega, by omega, by omega, by omega, ?_, hf, isGreatest_membersBelow_succ hz⟩
    rw [hcard, ← hcount]
  cases hfirst : s.first with
  | none =>
    rw [hfirst] at hends
    simp only [spanStep, hz, if_false, hfirst, returns_bind, Exec.returns_add]
    refine ⟨by omega, ?_⟩
    simpa only [returns_bind, Exec.returns_add] using hsat _ (isLeast_membersBelow_first hz hends)
  | some first =>
    rw [hfirst] at hends
    simp only [spanStep, hz, if_false, hfirst, pure_bind]
    exact hsat first (isLeast_membersBelow_succ hends.1)

theorem membersBelow_eq_Icc {range : ByteRange}
    (h : ∀ b, set.contains b = true ↔ range.start ≤ b ∧ b ≤ range.last) :
    set.membersBelow 256 = Set.Icc range.start.toNat range.last.toNat := by
  ext n
  rw [Set.mem_Icc]
  constructor
  · intro hn
    have hb := (h (BitVec.ofNat 8 n)).mp (by rw [← bit_eq_contains _ _ hn.1]; exact hn.2)
    simpa only [BitVec.le_def, BitVec.toNat_ofNat, Nat.mod_eq_of_lt hn.1] using hb
  · intro hn
    have hlt : n < 256 := hn.2.trans_lt range.last.isLt
    have hb := (h (BitVec.ofNat 8 n)).mpr (by
      simpa only [BitVec.le_def, BitVec.toNat_ofNat, Nat.mod_eq_of_lt hlt] using hn)
    exact ⟨hlt, by rwa [bit_eq_contains _ _ hlt]⟩

section Span

variable {set} {first last : ℕ} (hl : IsLeast (set.membersBelow 256) first)
  (hg : IsGreatest (set.membersBelow 256) last)

include hl hg

/-- The ends of a set that is a range are the ends of the range. -/
theorem span_ends {range : ByteRange} (hle : range.start ≤ range.last)
    (h : ∀ b, set.contains b = true ↔ range.start ≤ b ∧ b ≤ range.last) :
    first = range.start.toNat ∧ last = range.last.toNat := by
  rw [set.membersBelow_eq_Icc h] at hl hg
  exact ⟨hl.unique (isLeast_Icc hle), hg.unique (isGreatest_Icc hle)⟩

/-- A set with as many members as lie between its ends has all of them. -/
theorem span_full (hcount : last - first + 1 = (set.membersBelow 256).ncard) :
    set.membersBelow 256 = Set.Icc first last := by
  have hfl : first ≤ last := hl.2 hg.1
  have hsub : set.membersBelow 256 ⊆ Set.Icc first last := fun n hn => ⟨hl.2 hn, hg.2 hn⟩
  refine Set.eq_of_subset_of_ncard_le hsub ?_
  rw [Set.ncard_Icc_nat, ← hcount]
  omega

/-- The ends found and the number of members decide whether the set is a range. -/
theorem span_iff (range : ByteRange) :
    (range.start ≤ range.last ∧ ∀ b, set.contains b = true ↔ range.start ≤ b ∧ b ≤ range.last) ↔
      (set.membersBelow 256).ncard = last - first + 1 ∧
        ⟨BitVec.ofNat 8 first, BitVec.ofNat 8 last⟩ = range := by
  have hfl : first ≤ last := hl.2 hg.1
  have hlast : last < 256 := hg.1.1
  constructor
  · intro h
    obtain ⟨hle, hrange⟩ := h
    obtain ⟨he, he'⟩ := span_ends hl hg hle hrange
    constructor
    · rw [set.membersBelow_eq_Icc hrange, Set.ncard_Icc_nat, ← he, ← he']
      omega
    · rw [he, he', BitVec.ofNat_toNat, BitVec.ofNat_toNat, BitVec.setWidth_eq, BitVec.setWidth_eq]
  · intro h
    obtain ⟨hcount, rfl⟩ := h
    have hall := span_full hl hg hcount.symm
    simp only [BitVec.le_def, BitVec.toNat_ofNat, Nat.mod_eq_of_lt hlast,
      Nat.mod_eq_of_lt (hfl.trans_lt hlast)]
    exact ⟨hfl, fun b => by rw [← toNat_mem_membersBelow, hall]; rfl⟩

end Span

theorem mem_membersBelow_all (n : ℕ) : n ∈ set.membersBelow 256 ↔ n ∈ set.memberBits := by
  rw [mem_memberBits]
  apply and_iff_right_of_imp
  intro h
  exact set.memberBits_lt ((set.mem_memberBits n).mpr h)

theorem ncard_membersBelow_all : (set.membersBelow 256).ncard = set.memberList.length := by
  have hset : set.membersBelow 256 = {n | n ∈ set.memberBits} :=
    Set.ext fun n => set.mem_membersBelow_all n
  rw [hset, ncard_memberBits, memberList, List.length_map]

section Ends

variable {set} {start : U8} {rest : List U8} (h : set.memberList = start :: rest)

include h

theorem memberList_ends : IsLeast (set.membersBelow 256) start.toNat ∧
    IsGreatest (set.membersBelow 256) (rest.getLastD start).toNat := by
  have hbits : set.memberBits = (start :: rest).map BitVec.toNat := by rw [← memberList_toNat, h]
  constructor
  · have hleast := leastIn_head set.memberBits_sorted set.mem_membersBelow_all
    rwa [hbits, List.head?_map] at hleast
  · have hgreatest := greatestIn_getLast set.memberBits_sorted set.mem_membersBelow_all
    rwa [hbits, List.getLast?_map, List.getLast?_cons, ← List.getLastD_eq_getLast?] at hgreatest

/-- The members lie between the first and the last of the list, and fill that range when there are
as many of them as it has bytes. -/
theorem memberList_span :
    start ≤ rest.getLastD start ∧
      ((rest.getLastD start - start).toNat + 1 = set.memberList.length →
        ∀ b, set.contains b = true ↔ start ≤ b ∧ b ≤ rest.getLastD start) := by
  obtain ⟨hl, hg⟩ := memberList_ends h
  have hle : start ≤ rest.getLastD start := hl.2 hg.1
  refine ⟨hle, ?_⟩
  intro hcount b
  have hfull := span_full hl hg (by
    rw [ncard_membersBelow_all, ← hcount, BitVec.toNat_sub_of_le hle])
  rw [← toNat_mem_membersBelow, hfull]
  rfl

/-- The span is as long as the list exactly when the set is a range. -/
theorem memberList_span_iff : (rest.getLastD start - start).toNat + 1 = set.memberList.length ↔
    ∃ range : ByteRange, range.start ≤ range.last ∧
      ∀ b, set.contains b = true ↔ range.start ≤ b ∧ b ≤ range.last := by
  obtain ⟨hl, hg⟩ := memberList_ends h
  obtain ⟨hle, hfull⟩ := memberList_span h
  constructor
  · intro hcount
    exact ⟨⟨start, rest.getLastD start⟩, hle, hfull hcount⟩
  · intro hs
    obtain ⟨range, hrange⟩ := hs
    have hcount := ((span_iff hl hg range).mp hrange).1
    rw [BitVec.toNat_sub_of_le hle, ← hcount, ncard_membersBelow_all]

end Ends

theorem spanLoop_spec : Returns (forEach set.spanStep (List.finRange 4) ⟨none, 0, 0⟩)
    (Flow.Sat (fun _ => False) (set.SpanInv 4)) :=
  returns_forEach_range set.SpanInv (fun _ => False)
    ⟨by simp [membersBelow_zero], set.membersBelow_zero⟩ set.spanStep_spec

/-- `asContiguousRange` answers exactly the nonempty sets that are a range, with its ends. -/
theorem asContiguousRange_spec :
    Returns set.asContiguousRange fun r =>
      ∀ range, r = some range ↔
        range.start ≤ range.last ∧
          ∀ b, set.contains b = true ↔ range.start ≤ b ∧ b ≤ range.last := by
  rw [asContiguousRange, returns_andThen]
  apply returns_mono set.spanLoop_spec
  intro flow hf
  cases flow with
  | ret r => exact hf.elim
  | next s =>
    obtain ⟨hcount, hends⟩ := hf
    have hcount : s.count = (set.membersBelow 256).ncard := hcount
    rw [flow_sat_next]
    cases hfirst : s.first with
    | none =>
      rw [hfirst] at hends
      simp only [returns_pure, reduceCtorEq, false_iff]
      intro range h
      obtain ⟨hle, hrange⟩ := h
      have hstart := (set.toNat_mem_membersBelow _).mpr ((hrange _).mpr ⟨BitVec.le_refl _, hle⟩)
      rw [show set.membersBelow 256 = ∅ from hends] at hstart
      exact hstart
    | some first =>
      rw [hfirst] at hends
      obtain ⟨hl, hg⟩ := hends
      have hfl : first ≤ s.last := hl.2 hg.1
      have hlast : s.last < 256 := hg.1.1
      simp only [returns_bind, Exec.returns_sub, Exec.returns_add, returns_ite, returns_pure,
        span_iff hl hg, ← hcount]
      refine ⟨hfl, by omega, ?_, ?_⟩
      · intro hne range
        simp [hne]
      · intro heq range
        simp [not_not.mp heq]

/-- An array of at most 255 bytes is filled exactly when it has room for every member, and then its
front is the list of members, whose length fits the `u8` returned. -/
theorem writeMembers_front {N : ℕ} (members : Vector U8 N) (hN : N ≤ 255) :
    Returns (set.writeMembers members) fun r =>
      (r.1.isSome = true ↔ set.memberList.length ≤ N) ∧
      ∀ c, r.1 = some c →
        c.toNat = set.memberList.length ∧ r.2.toList.take c.toNat = set.memberList := by
  apply returns_mono (set.writeMembers_spec members)
  intro r h
  split_ifs at h with hroom
  · obtain ⟨hsome, hfilled⟩ := h
    rw [hsome, Option.isSome_some]
    refine ⟨iff_of_true rfl hroom, ?_⟩
    intro c hc
    have hcount : c.toNat = set.memberList.length := by
      rw [← Option.some.inj hc, BitVec.toNat_ofNat]
      exact Nat.mod_eq_of_lt (by omega)
    refine ⟨hcount, ?_⟩
    rw [hcount]
    apply List.ext_getElem
    · rw [List.length_take, Vector.length_toList, min_eq_left hroom]
    · intro i _ hi
      rw [List.getElem_take, Vector.getElem_toList]
      exact hfilled i (hi.trans_le hroom) hi
  · rw [h]
    simp [hroom]

theorem memberByte_exact (i : Fin 4) {word : U64} (hword : word ≠ 0#64) :
    Returns (memberByte i (trailingZeros word)) fun byte =>
      byte.toNat = i.val * 64 + trailingZeros word := by
  have hi := i.isLt
  have htz := trailingZeros_lt hword
  apply returns_memberByte htz
  rw [BitVec.toNat_ofNat, Nat.mul_comm i.val]
  exact Nat.mod_eq_of_lt (by omega)

/-- The three classifiers answer exactly the sets they look for. None of them overflows, and the
numbers they cast to `u8`, the bytes of members and the ends of the span, are below 256. -/
theorem classification_is_exact :
    (∀ (N : ℕ) (members : Vector U8 N), N ≤ 255 → ∃ r members',
      set.writeMembers members = .ok (r, members') ∧
      (r.isSome = true ↔ set.members.ncard ≤ N) ∧
      ∀ c, r = some c → c.toNat = set.members.ncard ∧
        (members'.toList.take c.toNat).Pairwise (· < ·) ∧
        ∀ b, b ∈ members'.toList.take c.toNat ↔ b ∈ set.members) ∧
    (∃ r, set.excludedByte = .ok r ∧ ∀ b, r = some b ↔ set.members = {b}ᶜ) ∧
    (∃ r, set.asContiguousRange = .ok r ∧ ∀ range, r = some range ↔
      set.members.Nonempty ∧ set.members = {b | range.start ≤ b ∧ b ≤ range.last}) ∧
    (∀ (i : Fin 4) (word : U64), word ≠ 0#64 → ∃ byte,
      memberByte i (trailingZeros word) = .ok byte ∧
        byte.toNat = i.val * 64 + trailingZeros word) ∧
    ∃ s, forEach set.spanStep (List.finRange 4) ⟨none, 0, 0⟩ = .ok (.next s) ∧
      ∀ first, s.first = some first → first < 256 ∧ s.last < 256 := by
  refine ⟨?_, ?_, ?_, fun i word => memberByte_exact i, ?_⟩
  · intro N members hN
    obtain ⟨⟨r, members'⟩, hrun, hsome, hfront⟩ := set.writeMembers_front members hN
    rw [length_memberList] at hsome
    refine ⟨r, members', hrun, hsome, ?_⟩
    intro c hc
    obtain ⟨hcount, hfront⟩ := hfront c hc
    rw [length_memberList] at hcount
    have hfront : members'.toList.take c.toNat = set.memberList := hfront
    rw [hfront]
    exact ⟨hcount, set.memberList_sorted, set.mem_memberList⟩
  · obtain ⟨r, hrun, hexact⟩ := set.excludedByte_spec
    refine ⟨r, hrun, ?_⟩
    intro b
    rw [hexact, Set.ext_iff]
    rfl
  · obtain ⟨r, hrun, hexact⟩ := set.asContiguousRange_spec
    refine ⟨r, hrun, ?_⟩
    intro range
    rw [hexact, Set.ext_iff]
    constructor
    · intro h
      obtain ⟨hle, hrange⟩ := h
      exact ⟨⟨range.start, (hrange _).mpr ⟨BitVec.le_refl _, hle⟩⟩, hrange⟩
    · intro h
      obtain ⟨⟨b, hb⟩, hrange⟩ := h
      obtain ⟨hstart, hlast⟩ := (hrange b).mp hb
      exact ⟨BitVec.le_trans hstart hlast, hrange⟩
  · obtain ⟨s, hrun, -, hends⟩ := returns_next set.spanLoop_spec
    refine ⟨s, hrun, ?_⟩
    intro first hfirst
    rw [hfirst] at hends
    obtain ⟨hleast, hgreatest⟩ := hends
    exact ⟨hleast.1.1, hgreatest.1.1⟩

end MemchrN.ByteSet
