import MemchrN.Framework.Counting
import MemchrN.Swar.Scan

namespace MemchrN.Swar

section Definitions

variable [Target] {K : Type} [Kernel K] (kernel : K)

/-- Words whose marks one accumulator can add up. -/
abbrev chunksPerAccumulator : ℕ := 255

def countWord {ρ : Type} (word : Vector U8 wordBytes) (counts : U64) : Exec (Flow ρ U64) := do
  let marks := matchesAt kernel word >>> 7
  let counts ← Exec.addWord counts marks
  return .next counts

/-- Eight byte counters in a word, drained at the end of the batch. -/
def countBatch (batch : List (Vector U8 wordBytes)) (total : ℕ) : Exec (Flow ℕ ℕ) :=
  andThen (forEach (countWord kernel) batch 0#64) fun counts =>
    pure (.next ((toNeBytes 8 counts).toList.foldl (fun total byte => total + byte.toNat) total))

def countAll (haystack : List U8) : Exec ℕ :=
  let (words, tail) := asChunks wordBytes haystack
  andThen (forEach (countBatch kernel) (chunks chunksPerAccumulator words) 0) fun total => do
    if tail.isEmpty then return total
    let bits ← shortTailBits kernel tail
    return total + countOnes bits

end Definitions

/-- Draining adds the eight counters, whatever their order in memory. -/
theorem drain_eq [Target] (counts : U64) (total : ℕ) :
    (toNeBytes 8 counts).toList.foldl (fun total byte => total + byte.toNat) total =
      total + ∑ i : Fin 8, (byteAt counts i).toNat := by
  have hfold (bytes : List U8) (total : ℕ) :
      bytes.foldl (fun total byte => total + byte.toNat) total =
        total + (bytes.map BitVec.toNat).sum := by
    induction bytes generalizing total with
    | nil => rfl
    | cons b bytes ih => rw [List.foldl_cons, ih, List.map_cons, List.sum_cons, Nat.add_assoc]
  have hsum : ((toLeBytes 8 counts).toList.map BitVec.toNat).sum =
      ∑ i : Fin 8, (byteAt counts i).toNat := by
    rw [toLeBytes, Vector.toList_ofFn, List.map_ofFn, List.sum_ofFn]
    rfl
  rw [hfold, toNeBytes]
  cases (Target.endian) with
  | little => rw [hsum]
  | big => rw [Vector.toList_reverse, List.map_reverse, List.sum_reverse, hsum]

variable {K : Type} [Kernel K] {kernel : K} (hlaw : Lawful kernel)

include hlaw

theorem byteAt_increment (word : Vector U8 wordBytes) (i : Fin 8) :
    byteAt (matchesAt kernel word >>> 7) i =
      if Kernel.matchesByte kernel (word.get i) then 1#8 else 0#8 := by
  have hbyte := byteAt_matchesAt hlaw word
  have hlow (k j : ℕ) (hj : j < 7) : (byteAt (matchesAt kernel word) k).getLsbD j = false := by
    rcases Nat.lt_or_ge k 8 with hk | hk
    · have hbits : ∀ j < 7, (0x80#8).getLsbD j = false := by decide
      rw [hbyte k hk]
      split_ifs <;> simp [hbits j hj]
    · rw [byteAt, BitVec.getLsbD_extractLsb', BitVec.getLsbD_of_ge _ _ (by omega), Bool.and_false]
  have hhigh : (byteAt (matchesAt kernel word) i).getLsbD 7 =
      Kernel.matchesByte kernel (word.get i) := by
    rw [hbyte i i.isLt, Vector.getElem_map, Vector.get_eq_getElem]
    cases Kernel.matchesByte kernel (word.get i) <;> rfl
  apply BitVec.eq_of_getLsbD_eq
  intro j hj
  rw [byteAt, BitVec.getLsbD_extractLsb', BitVec.getLsbD_ushiftRight, getLsbD_eq_byteAt]
  rcases Nat.eq_zero_or_pos j with rfl | hpos
  · have hlane : (7 + (8 * i.val + 0)) / 8 = i := by omega
    have hbit : (7 + (8 * i.val + 0)) % 8 = 7 := by omega
    rw [hlane, hbit, hhigh]
    cases Kernel.matchesByte kernel (word.get i) <;> rfl
  · rw [hlow _ _ (by omega), Bool.and_false]
    split_ifs
    · rw [BitVec.getLsbD_one]
      simp [Nat.ne_of_gt hpos]
    · simp

section Batch

variable {batch : List (Vector U8 wordBytes)} (hbatch : batch.length ≤ 255) {k : ℕ}
  (hk : k < batch.length) {counts : U64} (hcounts : ∀ i : Fin 8, (byteAt counts i).toNat =
    laneCount (Kernel.matchesByte kernel) (batch.take k) i)

include hbatch hk hcounts

/-- The batch is short enough for a counter to take one more mark without a carry. -/
theorem counters_fit : counts.toNat + (matchesAt kernel batch[k] >>> 7).toNat < 2 ^ 64 ∧
    ∀ i : Fin 8,
      (byteAt counts i).toNat + (byteAt (matchesAt kernel batch[k] >>> 7) i).toNat ≤ 255 ∧
      (byteAt (counts + matchesAt kernel batch[k] >>> 7) i).toNat =
        (byteAt counts i).toNat + (byteAt (matchesAt kernel batch[k] >>> 7) i).toNat := by
  have hfit (i : Fin 8) :
      (byteAt counts i).toNat + (byteAt (matchesAt kernel batch[k] >>> 7) i).toNat ≤ 255 := by
    have hle : laneCount (Kernel.matchesByte kernel) (batch.take k) i ≤ k :=
      (laneCount_le _ _ i).trans (List.length_take_le k batch)
    rw [hcounts, byteAt_increment hlaw]
    split_ifs
    · show _ + 1 ≤ 255
      omega
    · show _ + 0 ≤ 255
      omega
  obtain ⟨hword, hlanes⟩ := byteAt_add (n := 8) rfl fun i hi =>
    Nat.lt_succ_of_le (hfit ⟨i, hi⟩)
  refine ⟨hword, fun i => ⟨hfit i, ?_⟩⟩
  rw [hlanes, BitVec.toNat_add]
  exact Nat.mod_eq_of_lt (Nat.lt_succ_of_le (hfit i))

/-- Every counter counts the matches of its lane. -/
theorem countWord_spec {ρ : Type} (P : ρ → Prop) :
    Returns (countWord kernel batch[k] counts) (Flow.Sat P fun counts =>
      ∀ i : Fin 8, (byteAt counts i).toNat =
        laneCount (Kernel.matchesByte kernel) (batch.take (k + 1)) i) := by
  obtain ⟨hword, hlanes⟩ := counters_fit hlaw hbatch hk hcounts
  simp only [countWord, returns_bind, Exec.returns_addWord, returns_pure, flow_sat_next]
  refine ⟨hword, ?_⟩
  intro i
  rw [(hlanes i).2, hcounts, byteAt_increment hlaw, laneCount_take_succ _ hk]
  split_ifs <;> rfl

end Batch

theorem countWords_spec {ρ : Type} {batch : List (Vector U8 wordBytes)}
    (hbatch : batch.length ≤ 255) (P : ρ → Prop) :
    Returns (forEach (countWord kernel) batch 0#64) (Flow.Sat P fun counts =>
      ∀ i : Fin 8, (byteAt counts i).toNat =
        laneCount (Kernel.matchesByte kernel) batch i) := by
  apply returns_forEach_take (fun words (counts : U64) => ∀ i : Fin 8, (byteAt counts i).toNat =
    laneCount (Kernel.matchesByte kernel) words i)
  · simp [byteAt, laneCount]
  · intro k hk counts hcounts
    exact countWord_spec hlaw hbatch hk hcounts P

theorem countBatch_spec [Target] {batch : List (Vector U8 wordBytes)} (hbatch : batch.length ≤ 255)
    (total : ℕ) (P : ℕ → Prop) : Returns (countBatch kernel batch total) (Flow.Sat P fun total' =>
      total' = total + countIn (Kernel.matchesByte kernel) batch) := by
  rw [countBatch, returns_andThen]
  apply returns_flow_mono (countWords_spec hlaw hbatch _)
  intro counts hcounts
  rw [returns_pure, flow_sat_next, drain_eq, ← sum_laneCount]
  simp only [hcounts]

theorem countAll_spec [Target] (xs : List U8) :
    Returns (countAll kernel xs) fun total => total = xs.countP (Kernel.matchesByte kernel) := by
  rw [countAll, returns_andThen, countP_asChunks _ wordBytes xs]
  set words := (asChunks wordBytes xs).1
  have hend : words.length ≤ (chunks chunksPerAccumulator words).length * chunksPerAccumulator :=
    chunks_length_mul (by decide)
  refine returns_flow_mono (returns_forEach (fun i total => total =
      countIn (Kernel.matchesByte kernel) (words.take (i * chunksPerAccumulator))) _
    (by simp) fun i hi total htotal => ?_) fun total htotal => ?_
  · rw [take_chunks hi, countIn_append, ← htotal]
    exact countBatch_spec hlaw (length_of_mem_chunks hi) total _
  · rw [List.take_of_length_le hend] at htotal
    simp only [returns_ite, returns_pure, returns_bind]
    constructor
    · intro hempty
      rw [List.isEmpty_iff.mp hempty, htotal]
      rfl
    · intro hne
      have hpos : 0 < (asChunks wordBytes xs).2.length :=
        List.length_pos_iff.mpr (by simpa using hne)
      have hshort := asChunks_rest_lt (n := wordBytes) xs (by decide)
      apply returns_mono (shortTailBits_spec hlaw hpos hshort)
      intro bits hbits
      rw [htotal, countOnes_eq_countP _ hbits]

/-- The count is exact. Before each word of a batch every byte of the accumulator holds the exact
count of its lane, and neither a byte nor the word overflows when the word's marks are added. -/
theorem swarCount_is_exact [Target] (xs : List U8) :
    (∃ total, countAll kernel xs = .ok total ∧
      total = xs.countP (Kernel.matchesByte kernel) ∧ total ≤ xs.length) ∧
    ∀ batch ∈ chunks chunksPerAccumulator (asChunks wordBytes xs).1, ∀ k (hk : k < batch.length),
      ∃ counts, forEach (ρ := ℕ) (countWord kernel) (batch.take k) 0#64 = .ok (.next counts) ∧
        counts.toNat + (matchesAt kernel batch[k] >>> 7).toNat < 2 ^ 64 ∧
        ∀ i : Fin 8, (byteAt counts i).toNat =
            laneCount (Kernel.matchesByte kernel) (batch.take k) i ∧
          (byteAt counts i).toNat + (byteAt (matchesAt kernel batch[k] >>> 7) i).toNat ≤ 255 ∧
          (byteAt (counts + matchesAt kernel batch[k] >>> 7) i).toNat =
            (byteAt counts i).toNat + (byteAt (matchesAt kernel batch[k] >>> 7) i).toNat := by
  obtain ⟨total, hrun, htotal⟩ := countAll_spec hlaw xs
  refine ⟨⟨total, hrun, htotal, htotal.trans_le List.countP_le_length⟩, ?_⟩
  intro batch hmem k hk
  obtain ⟨i, hi, rfl⟩ := List.getElem_of_mem hmem
  have hbatch := length_of_mem_chunks hi
  have htake : ((chunks chunksPerAccumulator (asChunks wordBytes xs).1)[i].take k).length ≤ 255 :=
    (List.length_take_le' k _).trans hbatch
  obtain ⟨counts, hloop, hcounts⟩ := returns_next (countWords_spec hlaw htake fun _ : ℕ => False)
  obtain ⟨hword, hlanes⟩ := counters_fit hlaw hbatch hk hcounts
  exact ⟨counts, hloop, hword, fun i => ⟨hcounts i, hlanes i⟩⟩

omit hlaw in
theorem swarCount_is_exact_full :
    let _ : Target := ⟨.x86, .big⟩
    countAll (NotByte.new 0x61#8) (List.replicate 2049 0x62#8) = .ok 2049 := by
  intro _
  obtain ⟨⟨total, hrun, htotal, -⟩, -⟩ := swarCount_is_exact (notByte_lawful 0x61#8)
    (List.replicate 2049 0x62#8)
  rw [hrun, htotal, List.countP_replicate]
  rfl

end MemchrN.Swar
