import MemchrN.Bitset.Classify

namespace MemchrN.ByteSet

/-- `byte_set_from_words`: bit `k` of word `i` stands for the byte `64 * i + k`. -/
def byteSetFromWords (words : Vector U64 4) : Exec ByteSet :=
  andThen
    (forEach (fun (i : Fin 4) => forSetBits (words.get i) fun tz byteSet => do
      let byte ← memberByte i tz
      return .next (byteSet.add byte)) (List.finRange 4) .new)
    fun byteSet => pure byteSet

variable {words : Vector U64 4} {set : ByteSet} {ρ : Type}

/-- Adding the bytes of one word changes the bits of that word alone. -/
theorem returns_addWord (i : Fin 4) (word : U64) (P : ρ → Prop) :
    Returns (forSetBits word (fun tz (byteSet : ByteSet) => do
        let byte ← memberByte i tz
        return Flow.next (byteSet.add byte)) set)
      (Flow.Sat P fun set' => ∀ (j : Fin 4) (k : ℕ), k < 64 →
        (set'.bit (64 * j.val + k) = true ↔
          set.bit (64 * j.val + k) = true ∨ j = i ∧ word.getLsbD k = true)) := by
  simp only [← mem_setBits (x := word)]
  rw [forSetBits_eq_forEach]
  refine returns_forEach_take (fun ks (set' : ByteSet) => ∀ (j : Fin 4) (k : ℕ), k < 64 →
    (set'.bit (64 * j.val + k) = true ↔ set.bit (64 * j.val + k) = true ∨ j = i ∧ k ∈ ks)) P
    (by simp) ?_
  intro n hn set' h
  have htz : (setBits word)[n] < 64 := BitVec.lt_of_getLsbD (mem_setBits.mp (List.getElem_mem hn))
  have hi := i.isLt
  rw [returns_bind]
  apply returns_memberByte htz
  refine (returns_pure _ _).mpr ?_
  intro j k hk
  have hj := j.isLt
  have hbyte : (BitVec.ofNat 8 (64 * i.val + (setBits word)[n])).toNat =
      64 * i.val + (setBits word)[n] := by
    rw [BitVec.toNat_ofNat]
    exact Nat.mod_eq_of_lt (by omega)
  have hnew : 64 * j.val + k = 64 * i.val + (setBits word)[n] ↔ j = i ∧ k = (setBits word)[n] := by
    rw [Fin.ext_iff]
    omega
  rw [bit_add _ _ _ (by omega), Bool.or_eq_true, decide_eq_true_eq, hbyte, hnew, h j k hk,
    List.take_succ_eq_append_getElem hn, List.mem_append, List.mem_singleton]
  tauto

/-- The table holds the bits of the words before the `i`th, and no others. -/
def HoldsWords (words : Vector U64 4) (i : ℕ) (set : ByteSet) : Prop :=
  ∀ (j : Fin 4) (k : ℕ), k < 64 →
    (set.bit (64 * j.val + k) = true ↔ j.val < i ∧ (words.get j).getLsbD k = true)

theorem holdsWords_new (words : Vector U64 4) : HoldsWords words 0 new := by
  intro j k _
  have hbit : new.bit (64 * j.val + k) = false := by
    by_cases hlt : 64 * j.val + k < 256
    · rw [bit_eq_contains _ _ hlt, contains_new]
    · exact bit_of_le _ _ (by omega)
  simp [hbit]

theorem HoldsWords.next {words : Vector U64 4} {i : Fin 4} {set set' : ByteSet}
    (h : HoldsWords words i set)
    (hset' : ∀ (j : Fin 4) (k : ℕ), k < 64 → (set'.bit (64 * j.val + k) = true ↔
      set.bit (64 * j.val + k) = true ∨ j = i ∧ (words.get i).getLsbD k = true)) :
    HoldsWords words (i.val + 1) set' := by
  intro j k hk
  have hlt : j.val < i.val + 1 ↔ j.val < i.val ∨ j = i := by
    rw [Fin.ext_iff]
    omega
  rw [hset' j k hk, h j k hk, hlt, or_and_right]
  apply or_congr Iff.rfl
  apply and_congr_right
  intro he
  rw [he]

theorem byteSetFromWords_spec (words : Vector U64 4) :
    Returns (byteSetFromWords words) fun set => ∀ i, set.word i = words.get i := by
  rw [byteSetFromWords, returns_andThen]
  apply returns_mono (returns_forEach_range (HoldsWords words) (fun _ => False)
    (holdsWords_new words) ?_)
  · intro flow hflow
    cases flow with
    | ret set => exact hflow.elim
    | next set =>
      refine (returns_pure _ _).mpr ?_
      intro i
      apply BitVec.eq_of_getLsbD_eq
      intro k hk
      rw [getLsbD_word _ _ _ hk, Bool.eq_iff_iff, hflow i k hk]
      exact and_iff_right i.isLt
  · intro i set h
    apply returns_flow_mono (returns_addWord i (words.get i) _)
    intro set' hset'
    exact h.next hset'

/-- The table is determined by its words. -/
theorem ext_of_word {other : ByteSet} (h : ∀ i, set.word i = other.word i) : set = other := by
  apply ext_of_contains
  intro b
  have hb := b.isLt
  have hsplit := Nat.div_add_mod b.toNat 64
  have hk : b.toNat % 64 < 64 := Nat.mod_lt _ (by decide)
  have hword := congrArg (·.getLsbD (b.toNat % 64)) (h ⟨b.toNat / 64, by omega⟩)
  simp only [getLsbD_word _ _ _ hk, hsplit] at hword
  rw [contains_eq_bit, contains_eq_bit, hword]

/-- Words and sets are the same thing: any four words make a set without a fault, the words of that
set are the ones it was made of, and the words of any set make it again. So a byte is a member
exactly when its bit is set. -/
theorem words_round_trip :
    (∀ words : Vector U64 4, ∃ set, byteSetFromWords words = .ok set ∧
      (∀ i, set.word i = words.get i) ∧
      ∀ (i : Fin 4) (k : ℕ), k < 64 →
        (BitVec.ofNat 8 (64 * i.val + k) ∈ set.members ↔ (words.get i).getLsbD k = true)) ∧
    ∀ set : ByteSet, byteSetFromWords (Vector.ofFn set.word) = .ok set := by
  constructor
  · intro words
    obtain ⟨set, hrun, hwords⟩ := byteSetFromWords_spec words
    refine ⟨set, hrun, hwords, ?_⟩
    intro i k hk
    have hi := i.isLt
    rw [mem_members, ← bit_eq_contains _ _ (by omega), ← getLsbD_word _ _ _ hk, hwords]
  · intro set
    apply returns_eq
    apply returns_mono (byteSetFromWords_spec (Vector.ofFn set.word))
    intro set' hwords
    apply ext_of_word
    intro i
    rw [hwords]
    exact Vector.getElem_ofFn i.isLt

end MemchrN.ByteSet
