import MemchrN.Bitset.Refinement

namespace MemchrN.ByteSet

variable (set : ByteSet)

/-- The members in ascending order, as numbers. -/
def memberBits : List ℕ := (List.range 256).filter set.bit

theorem getLsbD_word (i : Fin 4) (k : ℕ) (hk : k < 64) :
    (set.word i).getLsbD k = set.bit (64 * i + k) := by
  have hi := i.isLt
  rw [getLsbD_eq_byteAt, word, byteAt_fromLeBytes _ (by decide) (by omega), Vector.getElem_ofFn,
    bit_of_lt _ (by omega)]
  simp only [show (64 * i.val + k) / 8 = i.val * 8 + k / 8 by omega,
    show (64 * i.val + k) % 8 = k % 8 by omega]

theorem mem_setBits_word (i : Fin 4) (k : ℕ) :
    k ∈ setBits (set.word i) ↔ k < 64 ∧ set.bit (64 * i + k) = true := by
  rw [mem_setBits]
  constructor
  · intro h
    have hk := BitVec.lt_of_getLsbD h
    exact ⟨hk, by rwa [← getLsbD_word _ _ _ hk]⟩
  · intro hs
    obtain ⟨hk, h⟩ := hs
    rwa [getLsbD_word _ _ _ hk]

@[simp] theorem mem_memberBits (n : ℕ) : n ∈ set.memberBits ↔ set.bit n = true := by
  simp only [memberBits, List.mem_filter, List.mem_range, and_iff_right_iff_imp]
  intro h
  by_contra hn
  rw [bit_of_le _ _ (by omega)] at h
  exact absurd h (by decide)

theorem memberBits_lt {n : ℕ} (h : n ∈ set.memberBits) : n < 256 := by
  simp only [memberBits, List.mem_filter, List.mem_range] at h
  exact h.1

theorem filter_contains_range :
    (List.range 256).filter (fun n => set.contains (BitVec.ofNat 8 n)) = set.memberBits := by
  apply List.filter_congr
  intro n hn
  exact (set.bit_eq_contains n (List.mem_range.mp hn)).symm

theorem memberBits_sorted : set.memberBits.Pairwise (· < ·) :=
  List.Pairwise.filter _ List.pairwise_lt_range

/-- Scanning the words in order, and each from its low end, visits the members in order. -/
theorem memberBits_eq_words :
    set.memberBits = (List.finRange 4).flatMap fun i => (setBits (set.word i)).map (64 * i.val + ·) := by
  refine List.Pairwise.eq_of_mem_iff set.memberBits_sorted ?_ fun n => ?_
  · rw [List.pairwise_flatMap]
    constructor
    · intro i _
      exact (setBits_sorted _).map _ fun _ _ h => Nat.add_lt_add_left h _
    · refine List.Pairwise.imp ?_ (List.pairwise_lt_finRange 4)
      intro i j hij x hx y hy
      simp only [List.mem_map, mem_setBits_word] at hx hy
      obtain ⟨k, ⟨hk, -⟩, rfl⟩ := hx
      obtain ⟨l, -, rfl⟩ := hy
      have := Fin.lt_def.mp hij
      omega
  · simp only [List.mem_flatMap, List.mem_finRange, true_and, List.mem_map, mem_setBits_word]
    constructor
    · intro h
      have hn := set.memberBits_lt h
      refine ⟨⟨n / 64, by omega⟩, n % 64, ⟨Nat.mod_lt _ (by decide), ?_⟩, Nat.div_add_mod n 64⟩
      rw [Nat.div_add_mod n 64]
      exact (mem_memberBits set n).mp h
    · intro hs
      obtain ⟨i, k, ⟨-, h⟩, rfl⟩ := hs
      exact (mem_memberBits set _).mpr h

theorem len_eq_length : set.len = set.memberBits.length := by
  rw [len, memberBits_eq_words]
  simp [List.finRange_succ, countOnes_eq_length, Nat.add_assoc]

theorem isEmpty_iff : set.isEmpty = true ↔ ∀ b, set.contains b = false := by
  simp only [isEmpty, List.all_eq_true, List.mem_finRange, forall_const, beq_iff_eq]
  constructor
  · intro h b
    have hb := b.isLt
    have hw := getLsbD_word set ⟨b.toNat / 64, by omega⟩ (b.toNat % 64) (Nat.mod_lt _ (by decide))
    rw [h, Nat.div_add_mod, ← contains_eq_bit] at hw
    simpa using hw.symm
  · intro h i
    refine setBits_eq_nil.mp (List.eq_nil_iff_forall_not_mem.mpr fun k hk => ?_)
    obtain ⟨hk, hbit⟩ := (mem_setBits_word set i k).mp hk
    have hi := i.isLt
    rw [bit_eq_contains _ _ (by omega), h] at hbit
    exact absurd hbit (by decide)

theorem members_eq_image : set.members = (BitVec.ofNat 8) '' {n | n ∈ set.memberBits} := by
  ext b
  simp only [mem_members, Set.mem_image, Set.mem_ofPred_eq, mem_memberBits]
  constructor
  · intro h
    exact ⟨b.toNat, by rwa [← contains_eq_bit], by simp⟩
  · intro hs
    obtain ⟨n, hn, rfl⟩ := hs
    have hlt := set.memberBits_lt ((set.mem_memberBits n).mpr hn)
    rwa [← bit_eq_contains _ _ hlt]

theorem ncard_memberBits : {n | n ∈ set.memberBits}.ncard = set.memberBits.length := by
  have hnodup : set.memberBits.Nodup := set.memberBits_sorted.imp fun h => Nat.ne_of_lt h
  have hcoe : {n | n ∈ set.memberBits} = ↑set.memberBits.toFinset := by
    ext n
    simp
  rw [hcoe, Set.ncard_coe_finset, List.toFinset_card_of_nodup hnodup]

theorem ncard_members : set.members.ncard = set.memberBits.length := by
  have hinj : Set.InjOn (BitVec.ofNat 8) {n | n ∈ set.memberBits} := by
    intro m hm n hn h
    have hm' := set.memberBits_lt hm
    have hn' := set.memberBits_lt hn
    have := congrArg BitVec.toNat h
    simpa [Nat.mod_eq_of_lt hm', Nat.mod_eq_of_lt hn'] using this
  rw [members_eq_image, hinj.ncard_image, ncard_memberBits]

end MemchrN.ByteSet
