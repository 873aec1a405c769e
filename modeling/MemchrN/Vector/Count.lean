import MemchrN.Framework.LaneSums
import MemchrN.Vector.Scan

namespace MemchrN.Simd

section Definitions

/-- `_mm_sad_epu8`: absolute differences, summed over each half. -/
def sadEpu8 (a b : Vector U8 16) : Vector U64 2 :=
  Vector.ofFn fun j => BitVec.ofNat 64
    (∑ k : Fin 8, ((a[8 * j.val + k.val].toNat : ℤ) - b[8 * j.val + k.val].toNat).natAbs)

def x86SumWiden (lanes : Vector U8 16) : Vector U64 2 := sadEpu8 lanes (Vector.replicate 16 0#8)

/-- `vpaddlq_u8`: neighbouring lanes added in twice the width. -/
def aarch64SumWiden (lanes : Vector U8 16) : Vector U16 8 :=
  Vector.ofFn fun j => (lowLane lanes j).setWidth 16 + (highLane lanes j).setWidth 16

/-- `u8x16::widen`. -/
def widen (v : Vector U8 (8 + 8)) : Vector U16 8 × Vector U16 8 :=
  let (l, r) := split v
  (l.map (BitVec.setWidth 16), r.map (BitVec.setWidth 16))

variable [Target] (level : Level)

def sumLanes64 (counts : Vector U8 64) : ℕ :=
  let (l, r) := split (n := 32) counts
  let (a, b) := split (n := 16) l
  let (c, d) := split (n := 16) r
  if Target.arch = .x86 ∧ !level.asAvx2 ∧ level.asSse2 then
    (reduceSum (laneAdd (laneAdd (x86SumWiden a) (x86SumWiden b))
      (laneAdd (x86SumWiden c) (x86SumWiden d)))).toNat
  else if Target.arch = .aarch64 ∧ level.asNeon then
    (reduceSum (laneAdd (laneAdd (aarch64SumWiden a) (aarch64SumWiden b))
      (laneAdd (aarch64SumWiden c) (aarch64SumWiden d)))).toNat
  else counts.toList.foldl (fun total lane => total + lane.toNat) 0

variable {K : Type} [Kernel K] (kernel : K)

/-- Chunks whose masks one accumulator can add up. -/
abbrev chunksPerAccumulator : ℕ := 255

/-- Subtracting an all-ones mask adds one to the lane. -/
def countVector {ρ : Type} (w : Width) (chunk counts : Vector U8 w.lanes) :
    Exec (Flow ρ (Vector U8 w.lanes)) :=
  pure (.next (simdSub counts (maskBytes (matchesAt level kernel w chunk))))

def countBatch (batch : List (Vector U8 chunkBytes)) (total : ℕ) : Exec (Flow ℕ ℕ) :=
  andThen (forEach (countVector level kernel .w64) batch (Vector.replicate 64 0#8)) fun counts =>
    pure (.next (total + sumLanes64 level counts))

def countBlocks (blocks : List (Vector U8 blockBytes)) (total : ℕ) : Exec (Flow ℕ ℕ) := do
  if blocks.isEmpty then return .next total
  andThen (forEach (countVector level kernel .w16) blocks (Vector.replicate 16 0#8)) fun counts =>
    let (countL, countR) := widen counts
    pure (.next (total + (reduceSum (laneAdd countL countR)).toNat))

def countAll (haystack : List U8) : Exec ℕ :=
  let (chunks, tail) := asChunks chunkBytes haystack
  let (blocks, tail) := asChunks blockBytes tail
  andThen (forEach (countBatch level kernel) (MemchrN.chunks chunksPerAccumulator chunks) 0)
    fun total => andThen (countBlocks level kernel blocks total) fun total => do
      if tail.isEmpty then return total
      let bits ← tailBits level kernel haystack tail
      return total + countOnes bits

end Definitions

section Sums

variable {n : ℕ}

theorem laneSum_split (v : Vector U8 (n + n)) :
    laneSum v = laneSum (split v).1 + laneSum (split v).2 := by
  rw [laneSum, Fin.sum_univ_add]
  simp only [laneSum, split, Vector.get_eq_getElem, Vector.getElem_ofFn, Fin.val_castAdd,
    Fin.val_natAdd]

theorem laneSum_x86SumWiden (v : Vector U8 16) : laneSum (x86SumWiden v) = laneSum v := by
  have hdiff (x : U8) : ((x.toNat : ℤ) - (0#8).toNat).natAbs = x.toNat := by simp
  have hlane (j : Fin 2) :
      ((x86SumWiden v).get j).toNat = ∑ k : Fin 8, v[8 * j.val + k.val].toNat := by
    have hle := Finset.sum_le_card_nsmul Finset.univ
      (fun k : Fin 8 => v[8 * j.val + k.val].toNat) 255
      fun k _ => Nat.le_of_lt_succ v[8 * j.val + k.val].isLt
    rw [Finset.card_univ, Fintype.card_fin, smul_eq_mul] at hle
    simp only [x86SumWiden, sadEpu8, Vector.get_eq_getElem, Vector.getElem_ofFn,
      Vector.getElem_replicate, hdiff]
    rw [BitVec.toNat_ofNat]
    exact Nat.mod_eq_of_lt (hle.trans_lt (by decide))
  rw [laneSum, Fin.sum_univ_two, hlane, hlane, laneSum, Fin.sum_univ_add (a := 8) (b := 8)]
  rfl

/-- Two bytes fit a widened lane. -/
theorem toNat_aarch64SumWiden (v : Vector U8 16) (j : Fin 8) :
    ((aarch64SumWiden v).get j).toNat = (lowLane v j).toNat + (highLane v j).toNat := by
  have hlow := (lowLane v j).isLt
  have hhigh := (highLane v j).isLt
  simp only [aarch64SumWiden, Vector.get_eq_getElem, Vector.getElem_ofFn, BitVec.toNat_add,
    BitVec.toNat_setWidth, Fin.eta]
  omega

theorem laneSum_aarch64SumWiden (v : Vector U8 16) : laneSum (aarch64SumWiden v) = laneSum v := by
  simp only [laneSum, toNat_aarch64SumWiden]
  rw [Fin.sum_univ_eight, Fin.sum_univ_add (a := 8) (b := 8), Fin.sum_univ_eight, Fin.sum_univ_eight]
  simp [lowLane, highLane, Vector.get_eq_getElem]
  omega

/-- Eight bytes fit a widened lane: the additions of the pairwise sums do not wrap. -/
theorem aarch64_adds_fit (a b c d : Vector U8 16) (j : Fin 8) :
    ((laneAdd (laneAdd (aarch64SumWiden a) (aarch64SumWiden b))
      (laneAdd (aarch64SumWiden c) (aarch64SumWiden d))).get j).toNat =
      (lowLane a j).toNat + (highLane a j).toNat + ((lowLane b j).toNat + (highLane b j).toNat) +
        ((lowLane c j).toNat + (highLane c j).toNat +
          ((lowLane d j).toNat + (highLane d j).toNat)) := by
  have hpair (v : Vector U8 16) : ((aarch64SumWiden v).get j).toNat ≤ 510 := by
    have hlow := (lowLane v j).isLt
    have hhigh := (highLane v j).isLt
    rw [toNat_aarch64SumWiden]
    omega
  have hadd (u v : Vector U8 16) : ((laneAdd (aarch64SumWiden u) (aarch64SumWiden v)).get j).toNat =
      ((aarch64SumWiden u).get j).toNat + ((aarch64SumWiden v).get j).toNat := by
    apply toNat_get_laneAdd
    have hu := hpair u
    have hv := hpair v
    omega
  rw [toNat_get_laneAdd, hadd, hadd]
  · simp only [toNat_aarch64SumWiden]
  · have ha := hpair a
    have hb := hpair b
    have hc := hpair c
    have hd := hpair d
    rw [hadd, hadd]
    omega

theorem laneSum_widen (v : Vector U8 (8 + 8)) :
    laneSum (widen v).1 + laneSum (widen v).2 = laneSum v := by
  have hmap (u : Vector U8 8) : laneSum (u.map (BitVec.setWidth 16)) = laneSum u := by
    apply Finset.sum_congr rfl
    intro i _
    have := (u.get i).isLt
    simp only [Vector.get_eq_getElem, Vector.getElem_map, BitVec.toNat_setWidth] at this ⊢
    omega
  rw [widen, hmap, hmap, ← laneSum_split]

theorem sumLanes64_spec [Target] (level : Level) (counts : Vector U8 64) :
    sumLanes64 level counts = laneSum counts := by
  have hle := laneSum_le counts
  have h1 := laneSum_split (n := 32) counts
  have h2 := laneSum_split (n := 16) (split (n := 32) counts).1
  have h3 := laneSum_split (n := 16) (split (n := 32) counts).2
  simp only [sumLanes64]
  split_ifs
  · rw [toNat_reduceSum_four] <;> simp only [laneSum_x86SumWiden] <;> omega
  · rw [toNat_reduceSum_four] <;> simp only [laneSum_aarch64SumWiden] <;> omega
  · rw [laneSum_eq_list, List.sum_eq_foldl, List.foldl_map]

end Sums

variable [Target] {level : Level} {K : Type} [Kernel K] {kernel : K} (hlaw : Lawful level kernel)

include hlaw

section Accumulate

variable {w : Width} {batch : List (Vector U8 w.lanes)} (hbatch : batch.length ≤ 255)

include hbatch

/-- Every counter counts the matches of its lane; the batch is short enough for none to wrap. -/
theorem countVector_spec {ρ : Type} {k : ℕ} (hk : k < batch.length) {counts : Vector U8 w.lanes}
    (hcounts : ∀ i : Fin w.lanes, (counts.get i).toNat =
      laneCount (Kernel.matchesByte kernel) (batch.take k) i) (P : ρ → Prop) :
    Returns (countVector level kernel w batch[k] counts) (Flow.Sat P fun counts =>
      ∀ i : Fin w.lanes, (counts.get i).toNat =
        laneCount (Kernel.matchesByte kernel) (batch.take (k + 1)) i) := by
  rw [countVector, returns_pure, flow_sat_next]
  intro i
  have hle : laneCount (Kernel.matchesByte kernel) (batch.take k) i ≤ k :=
    (laneCount_le _ _ i).trans (List.length_take_le k batch)
  have hcount := hcounts i
  have hlane : (simdSub counts (maskBytes (matchesAt level kernel w batch[k]))).get i =
      (counts.get i) - if Kernel.matchesByte kernel (batch[k].get i) then 0xFF#8 else 0#8 := by
    rw [matchesAt, hlaw]
    simp [simdSub, maskBytes, Vector.get_eq_getElem]
  rw [hlane, laneCount_take_succ _ hk, ← hcount, BitVec.toNat_sub]
  split_ifs
  · rw [show (0xFF#8).toNat = 255 from rfl]
    omega
  · rw [show (0#8).toNat = 0 from rfl]
    omega

theorem countVectors_lanes {ρ : Type} (P : ρ → Prop) :
    Returns (forEach (countVector level kernel w) batch (Vector.replicate w.lanes 0#8))
      (Flow.Sat P fun counts => ∀ i : Fin w.lanes, (counts.get i).toNat =
        laneCount (Kernel.matchesByte kernel) batch i) := by
  apply returns_forEach_take (fun vectors (counts : Vector U8 w.lanes) => ∀ i : Fin w.lanes,
    (counts.get i).toNat = laneCount (Kernel.matchesByte kernel) vectors i)
  · simp [laneCount]
  · intro k hk counts hcounts
    exact countVector_spec hlaw hbatch hk hcounts P

theorem countVectors_spec {ρ : Type} (P : ρ → Prop) :
    Returns (forEach (countVector level kernel w) batch (Vector.replicate w.lanes 0#8))
      (Flow.Sat P fun counts => laneSum counts = countIn (Kernel.matchesByte kernel) batch) := by
  apply returns_flow_mono (countVectors_lanes hlaw hbatch P)
  intro counts hcounts
  rw [laneSum, ← sum_laneCount]
  exact Finset.sum_congr rfl fun i _ => hcounts i

/-- Each turn of the loop leaves the exact counts so far, so no lane has wrapped. -/
theorem countVectors_prefix (k : ℕ) : ∃ counts, forEach (ρ := ℕ) (countVector level kernel w)
      (batch.take k) (Vector.replicate w.lanes 0#8) = .ok (.next counts) ∧
    ∀ i : Fin w.lanes, (counts.get i).toNat =
        laneCount (Kernel.matchesByte kernel) (batch.take k) i ∧
      laneCount (Kernel.matchesByte kernel) (batch.take k) i ≤ 255 := by
  have htake : (batch.take k).length ≤ 255 := (List.length_take_le' k batch).trans hbatch
  obtain ⟨counts, hloop, hcounts⟩ :=
    returns_next (countVectors_lanes hlaw htake fun _ : ℕ => False)
  exact ⟨counts, hloop, fun i => ⟨hcounts i, (laneCount_le _ _ i).trans htake⟩⟩

end Accumulate

theorem countBatch_spec {batch : List (Vector U8 chunkBytes)} (hbatch : batch.length ≤ 255)
    (total : ℕ) (P : ℕ → Prop) : Returns (countBatch level kernel batch total) (Flow.Sat P
      fun total' => total' = total + countIn (Kernel.matchesByte kernel) batch) := by
  rw [countBatch, returns_andThen]
  apply returns_flow_mono (countVectors_spec hlaw (w := .w64) hbatch _)
  intro counts hcounts
  rw [returns_pure, flow_sat_next, sumLanes64_spec, hcounts]

theorem countBlocks_spec {blocks : List (Vector U8 blockBytes)} (hblocks : blocks.length ≤ 255)
    (total : ℕ) (P : ℕ → Prop) : Returns (countBlocks level kernel blocks total) (Flow.Sat P
      fun total' => total' = total + countIn (Kernel.matchesByte kernel) blocks) := by
  simp only [countBlocks, returns_ite, returns_pure, flow_sat_next, returns_andThen]
  refine ⟨fun hempty => ?_, fun _ => ?_⟩
  · rw [List.isEmpty_iff.mp hempty, countIn_nil, Nat.add_zero]
  apply returns_flow_mono (countVectors_spec hlaw (w := .w16) hblocks _)
  intro counts hcounts
  have hwide := laneSum_widen counts
  have hle := laneSum_le (n := 16) counts
  rw [toNat_reduceSum_two _ _ (by omega), hwide, hcounts]

omit [Target] [Kernel K] hlaw in
/-- What is left of the chunks holds few blocks. -/
theorem blocks_length_le (xs : List U8) :
    (asChunks blockBytes (asChunks chunkBytes xs).2).1.length ≤ 255 := by
  have hmod := Nat.mod_lt xs.length (show 0 < 64 by decide)
  rw [asChunks_length, asChunks_rest_length]
  show xs.length % 64 / 16 ≤ 255
  omega

theorem countAll_spec (xs : List U8) :
    Returns (countAll level kernel xs) fun total => total = xs.countP (Kernel.matchesByte kernel) := by
  rw [countAll, returns_andThen, countP_asChunks _ chunkBytes xs,
    countP_asChunks _ blockBytes (asChunks chunkBytes xs).2]
  set chunks := (asChunks chunkBytes xs).1
  have hend : chunks.length ≤
      (MemchrN.chunks chunksPerAccumulator chunks).length * chunksPerAccumulator :=
    chunks_length_mul (by decide)
  refine returns_flow_mono (returns_forEach (fun i total => total =
      countIn (Kernel.matchesByte kernel) (chunks.take (i * chunksPerAccumulator))) _
    (by simp) fun i hi total htotal => ?_) fun total htotal => ?_
  · rw [take_chunks hi, countIn_append, ← htotal]
    exact countBatch_spec hlaw (length_of_mem_chunks hi) total _
  rw [List.take_of_length_le hend] at htotal
  have hblocks := blocks_length_le xs
  rw [returns_andThen]
  apply returns_flow_mono (countBlocks_spec hlaw hblocks total _)
  intro t h
  subst h
  have hsuffix : (asChunks blockBytes (asChunks chunkBytes xs).2).2 <:+ xs :=
    (List.drop_suffix _ _).trans (List.drop_suffix _ _)
  simp only [returns_ite, returns_pure, returns_bind]
  constructor
  · intro hempty
    rw [List.isEmpty_iff.mp hempty, htotal]
    rfl
  · intro hne
    have hpos : 0 < (asChunks blockBytes (asChunks chunkBytes xs).2).2.length :=
      List.length_pos_iff.mpr (by simpa using hne)
    have hshort := asChunks_rest_lt (n := blockBytes) (asChunks chunkBytes xs).2 (by decide)
    apply returns_mono (tailBits_spec hlaw hsuffix hpos hshort)
    intro bits hbits
    rw [htotal, countOnes_eq_countP _ hbits, Nat.add_assoc]

/-- The count is exact: no lane of either accumulator wraps, and neither does any sum of the lanes,
whichever way they are added up. -/
theorem vectorCount_is_exact (xs : List U8) :
    (∃ total, countAll level kernel xs = .ok total ∧
      total = xs.countP (Kernel.matchesByte kernel) ∧ total ≤ xs.length) ∧
    (∀ batch ∈ MemchrN.chunks chunksPerAccumulator (asChunks chunkBytes xs).1, ∀ k,
      ∃ counts, forEach (ρ := ℕ) (countVector level kernel .w64) (batch.take k)
          (Vector.replicate 64 0#8) = .ok (.next counts) ∧
        ∀ i : Fin 64, (counts.get i).toNat =
            laneCount (Kernel.matchesByte kernel) (batch.take k) i ∧
          laneCount (Kernel.matchesByte kernel) (batch.take k) i ≤ 255) ∧
    (∀ k, ∃ counts, forEach (ρ := ℕ) (countVector level kernel .w16)
          ((asChunks blockBytes (asChunks chunkBytes xs).2).1.take k)
          (Vector.replicate 16 0#8) = .ok (.next counts) ∧
        ∀ i : Fin 16, (counts.get i).toNat = laneCount (Kernel.matchesByte kernel)
            ((asChunks blockBytes (asChunks chunkBytes xs).2).1.take k) i ∧
          laneCount (Kernel.matchesByte kernel)
            ((asChunks blockBytes (asChunks chunkBytes xs).2).1.take k) i ≤ 255) ∧
    (∀ counts : Vector U8 64, sumLanes64 level counts = ∑ i : Fin 64, (counts.get i).toNat) ∧
    ∀ (a b c d : Vector U8 16) (j : Fin 8),
      ((laneAdd (laneAdd (aarch64SumWiden a) (aarch64SumWiden b))
        (laneAdd (aarch64SumWiden c) (aarch64SumWiden d))).get j).toNat =
        (lowLane a j).toNat + (highLane a j).toNat + ((lowLane b j).toNat + (highLane b j).toNat) +
          ((lowLane c j).toNat + (highLane c j).toNat +
            ((lowLane d j).toNat + (highLane d j).toNat)) := by
  obtain ⟨total, hrun, htotal⟩ := countAll_spec hlaw xs
  refine ⟨⟨total, hrun, htotal, htotal.trans_le List.countP_le_length⟩, ?_, ?_,
    sumLanes64_spec level, aarch64_adds_fit⟩
  · intro batch hmem
    obtain ⟨i, hi, rfl⟩ := List.getElem_of_mem hmem
    exact countVectors_prefix hlaw (w := .w64) (length_of_mem_chunks hi)
  · exact countVectors_prefix hlaw (w := .w16) (blocks_length_le xs)

omit [Target] hlaw in
theorem vectorCount_is_exact_long :
    let _ : Target := ⟨.aarch64, .little⟩
    countAll (Level.ofFlags false false false false true .w16) (AnyOf.new #v[0x61#8])
      (List.replicate 16421 0x61#8) = .ok 16421 := by
  intro _
  obtain ⟨⟨total, hrun, htotal, -⟩, -⟩ := vectorCount_is_exact
    (anyOf_lawful (Level.ofFlags false false false false true .w16) #v[0x61#8])
    (List.replicate 16421 0x61#8)
  rw [hrun, htotal, List.countP_replicate, anyOf_matchesByte]
  rfl

end MemchrN.Simd
