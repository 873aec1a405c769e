import MemchrN.Framework.Blocks
import MemchrN.Search.Plan

namespace MemchrN

/-- The bytes one batch covers when `left` of them lie ahead of its base. -/
def Swar.batchWidth (left : ℕ) : ℕ :=
  if 2 * wordBytes ≤ left then 2 * wordBytes else min wordBytes left

def Simd.batchWidth (left : ℕ) : ℕ :=
  if 2 * chunkBytes ≤ left then 2 * chunkBytes
  else if chunkBytes ≤ left then chunkBytes
  else min blockBytes left

/-- The batches it takes to cover `left` bytes: pairs, the odd word, the tail. -/
def Swar.batchCount (left : ℕ) : ℕ := left / 16 + (left % 16 + 7) / 8

/-- Pairs, the odd chunk, blocks, the tail. -/
def Simd.batchCount (left : ℕ) : ℕ := left / 128 + left % 128 / 64 + (left % 64 + 15) / 16

def Engine.batchWidth : Engine → ℕ → ℕ
  | vector _ => Simd.batchWidth
  | swar => Swar.batchWidth

def Engine.batchCount : Engine → ℕ → ℕ
  | vector _ => Simd.batchCount
  | swar => Swar.batchCount

theorem Swar.batch_cuts : Cuts batchWidth batchCount where
  width_zero := rfl
  width_le left := by
    simp only [batchWidth, wordBytes]
    split_ifs <;> omega
  blocks_eq left hleft := by
    simp only [batchWidth, batchCount, wordBytes]
    split_ifs <;> omega

theorem Simd.batch_cuts : Cuts batchWidth batchCount where
  width_zero := rfl
  width_le left := by
    simp only [batchWidth, chunkBytes, blockBytes]
    split_ifs <;> omega
  blocks_eq left hleft := by
    simp only [batchWidth, batchCount, chunkBytes, blockBytes]
    split_ifs <;> omega

theorem Engine.batch_cuts (engine : Engine) : Cuts engine.batchWidth engine.batchCount := by
  cases engine with
  | vector level => exact Simd.batch_cuts
  | swar => exact Swar.batch_cuts

theorem Engine.batchCount_zero (engine : Engine) : engine.batchCount 0 = 0 := by
  cases engine <;> rfl

/-- A batch is one block of the cut that starts at the old scan offset. -/
structure BatchShape (width : ℕ → ℕ) (old : IterState) (r : MatchedBitset × IterState) : Prop where
  starts : StartsBlock width old.haystack.length old.scanOffset r.2.matchBase
  scanOffset_eq : r.2.scanOffset = blockEnd width old.haystack.length r.2.matchBase

/-- An empty batch starts where no more block of `block` bytes fits. -/
structure BatchCut (width : ℕ → ℕ) (block : ℕ) (old : IterState) (r : MatchedBitset × IterState) :
    Prop extends BatchShape width old r where
  empty_at : r.1 = 0#128 →
    r.2.matchBase + (old.haystack.length - old.scanOffset) % block = old.haystack.length

section Shapes

variable {width : ℕ → ℕ} {block : ℕ} {state : IterState} {p : U8 → Bool}

/-- A block of `n` bytes at `base`, handed back because it holds a match, is the next one of the
cut. -/
theorem BatchCut.of_hit {S : Set ℕ} {base n : ℕ} {bits : MatchedBitset}
    (hstarts : StartsBlock width state.haystack.length state.scanOffset base)
    (hwidth : width (state.haystack.length - base) = n) (hbits : bitSet bits = S) (hhit : S ≠ ∅) :
    BatchCut width block state (bits, { state with matchBase := base, scanOffset := base + n }) where
  starts := hstarts
  scanOffset_eq := by rw [blockEnd, hwidth]
  empty_at hzero := absurd (hbits.symm.trans (bitSet_eq_empty.mpr hzero)) hhit

theorem startsBlock_add {base n : ℕ}
    (hstarts : StartsBlock width state.haystack.length state.scanOffset base)
    (hwidth : width (state.haystack.length - base) = n) :
    StartsBlock width state.haystack.length state.scanOffset (base + n) := by
  have h := hstarts.next
  rwa [blockEnd, hwidth] at h

theorem returns_batchTail_shape {tailBits : List U8 → List U8 → Exec U64}
    {shortTailBits : List U8 → Exec U64} (htails : TailContract p block tailBits shortTailBits)
    {tail : List U8} (hsuffix : tail <:+ state.haystack) (hshort : tail.length < block)
    (hrest : (state.haystack.length - state.scanOffset) % block = tail.length)
    (hwidth : width tail.length = tail.length)
    (hstarts : StartsBlock width state.haystack.length state.scanOffset
      (state.haystack.length - tail.length)) :
    Returns (do
      let matchBase ← Exec.sub state.haystack.length tail.length
      let state := { state with matchBase := matchBase, scanOffset := state.haystack.length }
      if tail.isEmpty then return (0, state)
      let bits ← tailBits state.haystack tail
      return (bits.setWidth matchedBits, state)) (BatchCut width block state) := by
  have hle := hsuffix.length_le
  have hend (bits : MatchedBitset) : BatchCut width block state (bits, { state with
      matchBase := state.haystack.length - tail.length, scanOffset := state.haystack.length }) := by
    refine ⟨⟨hstarts, ?_⟩, ?_⟩
    · rw [blockEnd, Nat.sub_sub_self hle, hwidth, Nat.sub_add_cancel hle]
    · intro _
      rw [hrest]
      exact Nat.sub_add_cancel hle
  simp only [returns_bind, Exec.returns_sub, returns_ite, returns_pure]
  refine ⟨hle, fun _ => hend _, ?_⟩
  intro hempty
  have hne : tail ≠ [] := by simpa using hempty
  obtain ⟨bits, hrun, -⟩ := htails.tail state.haystack tail hsuffix hne hshort
  rw [hrun, returns_ok]
  exact hend _

end Shapes

/-- Behind the pairs of a tiling less than a pair is left. -/
theorem pairs_left {α : Type} {n off tail stop : ℕ} (cs : List (Vector α n)) (hshort : tail < n)
    (hlen : off + cs.length * n + tail = stop) :
    stop - (off + cs.length / 2 * (2 * n)) < 2 * n := by
  have hend := pairs_rest_end cs off
  have hodd := asChunks_rest_length (n := 2) cs
  have hle := Nat.mul_le_mul_right n (show (asChunks 2 cs).2.length ≤ 1 by omega)
  omega

/-- Chunks taken off the front change nothing about what does not fill a block. -/
theorem Simd.chunks_mod_blockBytes {n a stop : ℕ} (hle : a + n * chunkBytes ≤ stop) :
    (stop - a) % blockBytes = (stop - (a + n * chunkBytes)) % blockBytes := by
  simp only [chunkBytes, blockBytes] at hle ⊢
  omega

section Engines

variable {K : Type} {state : IterState} {base : ℕ}

section Swar

open Swar

variable [Kernel K] {kernel : K}

theorem Swar.batchPair_shape (hlaw : Lawful kernel) {pair : Vector (Vector U8 wordBytes) 2}
    (hfirst : ChunkAt state.haystack base (pairFirst pair))
    (hsecond : ChunkAt state.haystack (base + wordBytes) (pairSecond pair))
    (hstarts : StartsBlock batchWidth state.haystack.length state.scanOffset base) :
    Returns (batchPair kernel state pair base) (Flow.Sat (BatchCut batchWidth wordBytes state)
      fun a => a = base + 2 * wordBytes ∧
        StartsBlock batchWidth state.haystack.length state.scanOffset (base + 2 * wordBytes)) := by
  have hbits := bitSet_pair (bitSet_movemask_window hlaw hfirst)
    (bitSet_movemask_window hlaw hsecond) (by decide)
  have hzero : matchesAt kernel (pairFirst pair) ||| matchesAt kernel (pairSecond pair) = 0#64 ↔
      window (matchSet (Kernel.matchesByte kernel) state.haystack) base
        (wordBytes + wordBytes) = ∅ := by
    rw [BitVec.or_eq_zero_iff, matchesAt_eq_zero hlaw hfirst, matchesAt_eq_zero hlaw hsecond,
      window_add_eq_empty]
  have hfits := hsecond.fits
  have hwidth : batchWidth (state.haystack.length - base) = 2 * wordBytes := by
    rw [batchWidth, if_pos (by omega)]
  simp only [batchPair, returns_ite, returns_pure, flow_sat_ret, flow_sat_next, true_and]
  constructor
  · intro hhit
    exact .of_hit hstarts hwidth (bitSet_widen hbits) (hzero.not.mp hhit)
  · intro _
    exact startsBlock_add hstarts hwidth

theorem Swar.batchWord_shape (hlaw : Lawful kernel) {word : Vector U8 wordBytes}
    (hword : ChunkAt state.haystack base word) (hleft : state.haystack.length - base < 2 * wordBytes)
    (hstarts : StartsBlock batchWidth state.haystack.length state.scanOffset base) :
    Returns (batchWord kernel state word base) (Flow.Sat (BatchCut batchWidth wordBytes state)
      fun a => a = base + wordBytes ∧
        StartsBlock batchWidth state.haystack.length state.scanOffset (base + wordBytes)) := by
  have hzero := matchesAt_eq_zero hlaw hword
  have hfits := hword.fits
  have hwidth : batchWidth (state.haystack.length - base) = wordBytes := by
    rw [batchWidth, if_neg (by omega), min_eq_left (by omega)]
  simp only [batchWord, returns_ite, returns_pure, flow_sat_ret, flow_sat_next, true_and]
  constructor
  · intro hhit
    exact .of_hit hstarts hwidth (bitSet_widen (bitSet_movemask_window hlaw hword))
      (hzero.not.mp hhit)
  · intro _
    exact startsBlock_add hstarts hwidth

/-- The pairs end with less than a pair left, the odd word with less than a word. -/
theorem Swar.nextMatchBatch_shape (hlaw : Lawful kernel)
    (hstate : state.scanOffset ≤ state.haystack.length) :
    Returns (nextMatchBatch kernel state) (BatchCut batchWidth wordBytes state) := by
  obtain ⟨htiles, hsuffix, hshort, hlen⟩ := asChunks_drop hstate (show 0 < wordBytes by decide)
  have hend := pairs_rest_end (n := wordBytes)
    (asChunks wordBytes (state.haystack.drop state.scanOffset)).1 state.scanOffset
  have hleft := pairs_left (asChunks wordBytes (state.haystack.drop state.scanOffset)).1 hshort hlen
  simp only [nextMatchBatch, returns_bind, Exec.returns_getUncheckedFrom, returns_andThen]
  refine ⟨hstate, ?_⟩
  let Starts := StartsBlock batchWidth state.haystack.length state.scanOffset
  apply returns_flow_mono (returns_scan_pairs Starts _ htiles .first
    fun base pair _ hfirst hsecond hstarts => batchPair_shape hlaw hfirst hsecond hstarts)
  intro offset h
  obtain ⟨rfl, hstarts⟩ := h
  apply returns_flow_mono (returns_scan_tiles
    (fun base => Starts base ∧ state.haystack.length - base < 2 * wordBytes) _ (tiles_rest htiles)
    ⟨hstarts, hleft⟩ ?_)
  · intro offset h
    obtain ⟨rfl, hstarts, -⟩ := h
    rw [hend] at hstarts
    refine returns_batchTail_shape (tails_upheld hlaw) hsuffix hshort ?_ ?_ ?_
    · rw [asChunks_rest_length, List.length_drop]
    · rw [batchWidth, if_neg (by omega), min_eq_right hshort.le]
    · rwa [Nat.eq_sub_of_add_eq hlen] at hstarts
  · intro base word _ hword hs
    obtain ⟨hstarts, hleft⟩ := hs
    apply returns_flow_mono (batchWord_shape hlaw hword hleft hstarts)
    intro a ha
    obtain ⟨ha, hnext⟩ := ha
    exact ⟨ha, hnext, by omega⟩

end Swar

section Vector

open Simd

variable [Target] {level : Level} [Kernel K] {kernel : K}

theorem Simd.batchPair_shape (hlaw : Lawful level kernel)
    {pair : Vector (Vector U8 chunkBytes) 2}
    (hfirst : ChunkAt state.haystack base (pairFirst pair))
    (hsecond : ChunkAt state.haystack (base + chunkBytes) (pairSecond pair))
    (hstarts : StartsBlock batchWidth state.haystack.length state.scanOffset base) :
    Returns (batchPair level kernel state pair base)
      (Flow.Sat (BatchCut batchWidth blockBytes state) fun a => a = base + 2 * chunkBytes ∧
        StartsBlock batchWidth state.haystack.length state.scanOffset (base + 2 * chunkBytes)) := by
  have hfirstBits : bitSet (toBitmask (matchesAt level kernel .w64 (pairFirst pair))) =
      window (matchSet (Kernel.matchesByte kernel) state.haystack) base 64 :=
    bitSet_matchesAt hlaw hfirst
  have hsecondBits : bitSet (toBitmask (matchesAt level kernel .w64 (pairSecond pair))) =
      window (matchSet (Kernel.matchesByte kernel) state.haystack) (base + 64) 64 :=
    bitSet_matchesAt hlaw hsecond
  have hbits := bitSet_pair (bitSet_widen hfirstBits) (bitSet_widen hsecondBits) (by decide)
  have hany := anyTrue_pair hlaw hfirst hsecond
  have hfits := hsecond.fits
  have hwidth : batchWidth (state.haystack.length - base) = 2 * chunkBytes := by
    rw [batchWidth, if_pos (by omega)]
  simp only [batchPair, returns_ite, returns_pure, flow_sat_ret, flow_sat_next, true_and]
  constructor
  · intro hhit
    exact .of_hit hstarts hwidth hbits (hany.mp hhit)
  · intro _
    exact startsBlock_add hstarts hwidth

theorem Simd.batchVector_shape (hlaw : Lawful level kernel) {w : Width} {chunk : Vector U8 w.lanes}
    (hchunk : ChunkAt state.haystack base chunk)
    (hwidth : batchWidth (state.haystack.length - base) = w.lanes)
    (hstarts : StartsBlock batchWidth state.haystack.length state.scanOffset base) :
    Returns (batchVector level kernel w state chunk base)
      (Flow.Sat (BatchCut batchWidth blockBytes state) fun a => a = base + w.lanes ∧
        StartsBlock batchWidth state.haystack.length state.scanOffset (base + w.lanes)) := by
  have hany := anyTrue_matchesAt hlaw hchunk
  simp only [batchVector, returns_ite, returns_pure, flow_sat_ret, flow_sat_next, true_and]
  constructor
  · intro hhit
    exact .of_hit hstarts hwidth (bitSet_widen (bitSet_matchesAt hlaw hchunk)) (hany.mp hhit)
  · intro _
    exact startsBlock_add hstarts hwidth

/-- Behind the chunks, whatever is left is cut into blocks and a tail. -/
theorem Simd.batchBlocks_shape (hlaw : Lawful level kernel) (hbase : base ≤ state.haystack.length)
    (hleft : state.haystack.length - base < chunkBytes)
    (hrest : (state.haystack.length - state.scanOffset) % blockBytes =
      (state.haystack.length - base) % blockBytes)
    (hstarts : StartsBlock batchWidth state.haystack.length state.scanOffset base) :
    Returns (forEach (batchVector level kernel .w16 state)
        (asChunks blockBytes (state.haystack.drop base)).1 base)
      (Flow.Sat (BatchCut batchWidth blockBytes state) fun _ =>
        Returns (batchTail level kernel state (asChunks blockBytes (state.haystack.drop base)).2)
          (BatchCut batchWidth blockBytes state)) := by
  obtain ⟨hblocks, hsuffix, hshort, hlen⟩ := asChunks_drop hbase (show 0 < blockBytes by decide)
  let Starts := StartsBlock batchWidth state.haystack.length state.scanOffset
  apply returns_flow_mono (returns_scan_tiles
    (fun base => Starts base ∧ state.haystack.length - base < chunkBytes) _ hblocks
    ⟨hstarts, hleft⟩ ?_)
  · intro offset h
    obtain ⟨rfl, hstarts, -⟩ := h
    refine returns_batchTail_shape (tails_upheld hlaw) hsuffix hshort ?_ ?_ ?_
    · rw [asChunks_rest_length, List.length_drop, hrest]
    · rw [batchWidth, if_neg (by omega), if_neg (by omega), min_eq_right hshort.le]
    · rwa [Nat.eq_sub_of_add_eq hlen] at hstarts
  · intro base block _ hblock hs
    obtain ⟨hstarts, hleft⟩ := hs
    have hfits := hblock.fits
    have hwidth : batchWidth (state.haystack.length - base) = blockBytes := by
      rw [batchWidth, if_neg (by omega), if_neg (by omega), min_eq_left (by omega)]
    apply returns_flow_mono (batchVector_shape (w := .w16) hlaw hblock hwidth hstarts)
    intro a ha
    obtain ⟨ha, hnext⟩ := ha
    exact ⟨ha, hnext, by omega⟩

/-- The pairs end with less than a pair left, the odd chunk with less than a chunk. -/
theorem Simd.nextMatchBatch_shape (hlaw : Lawful level kernel)
    (hstate : state.scanOffset ≤ state.haystack.length) :
    Returns (nextMatchBatch level kernel state) (BatchCut batchWidth blockBytes state) := by
  obtain ⟨htiles, -, hshort, hlen⟩ := asChunks_drop hstate (show 0 < chunkBytes by decide)
  have hrest := asChunks_drop_rest (n := chunkBytes) state.haystack state.scanOffset
  have hend := pairs_rest_end (n := chunkBytes)
    (asChunks chunkBytes (state.haystack.drop state.scanOffset)).1 state.scanOffset
  have hodd := asChunks_rest_length (n := 2)
    (asChunks chunkBytes (state.haystack.drop state.scanOffset)).1
  have hleft := pairs_left (asChunks chunkBytes (state.haystack.drop state.scanOffset)).1 hshort hlen
  simp only [nextMatchBatch, returns_bind, Exec.returns_getUncheckedFrom, returns_andThen]
  refine ⟨hstate, ?_⟩
  let Starts := StartsBlock batchWidth state.haystack.length state.scanOffset
  apply returns_flow_mono (returns_scan_pairs Starts _ htiles .first
    fun base pair _ hfirst hsecond hstarts => batchPair_shape hlaw hfirst hsecond hstarts)
  intro offset h
  obtain ⟨rfl, hstarts⟩ := h
  rw [ifLetOne_eq_forEach _ (by omega)]
  apply returns_flow_mono (returns_scan_tiles
    (fun base => Starts base ∧ state.haystack.length - base < 2 * chunkBytes) _ (tiles_rest htiles)
    ⟨hstarts, hleft⟩ ?_)
  · intro offset h
    obtain ⟨rfl, hstarts, -⟩ := h
    rw [hend] at hstarts ⊢
    rw [hrest]
    exact batchBlocks_shape hlaw (by omega) (by omega) (chunks_mod_blockBytes (by omega)) hstarts
  · intro base chunk _ hchunk hs
    obtain ⟨hstarts, hleft⟩ := hs
    have hfits := hchunk.fits
    have hwidth : batchWidth (state.haystack.length - base) = chunkBytes := by
      rw [batchWidth, if_neg (by omega), if_pos (by omega)]
    apply returns_flow_mono (batchVector_shape (w := .w64) hlaw hchunk hwidth hstarts)
    intro a ha
    obtain ⟨ha, hnext⟩ := ha
    exact ⟨ha, hnext, by omega⟩

end Vector

end Engines

namespace SearchPlan

section Paced

/-- The batches keep to the cut of the plan's engine. -/
def PacedBy (plan : SearchPlan) (block : ℕ) : Prop :=
  ∀ state : IterState, state.scanOffset ≤ state.haystack.length →
    Returns (plan.scanOps.nextMatchBatch plan.kernelStorage state)
      (BatchCut plan.engine.batchWidth block state)

def Paced (plan : SearchPlan) : Prop := ∃ block, plan.PacedBy block

theorem never_paced : never.Paced := by
  refine ⟨1, ?_⟩
  intro state hstate
  refine (returns_pure _ _).mpr ⟨⟨Swar.batch_cuts.startsBlock_stop hstate,
    Swar.batch_cuts.blockEnd_stop.symm⟩, ?_⟩
  intro _
  rw [Nat.mod_one, Nat.add_zero]

variable [Target] {K : Type} [StoredKernel K]

theorem swar_paced [Swar.Kernel K] {kernel : K} (hlaw : Swar.Lawful kernel) : (swar kernel).Paced :=
  ⟨_, fun _ hstate => (returns_fromStorage _ _ _).mpr (Swar.nextMatchBatch_shape hlaw hstate)⟩

theorem vector_paced [Simd.Kernel K] {level : Level} {kernel : K}
    (hlaw : Simd.Lawful level kernel) : (vector level kernel).Paced :=
  ⟨_, fun _ hstate => (returns_fromStorage _ _ _).mpr (Simd.nextMatchBatch_shape hlaw hstate)⟩

end Paced

variable {plan : SearchPlan} {p : U8 → Bool}

/-- What is known of a batch from its contract and from the cut. -/
theorem nextMatchBatch_paced {block : ℕ} (hpaced : plan.PacedBy block)
    (hbatch : plan.scanOps.BatchContract plan.kernelStorage p) {state : IterState}
    (hstate : state.scanOffset ≤ state.haystack.length) :
    Returns (plan.nextMatchBatch state) fun r =>
      BatchSpec p state r ∧ BatchCut plan.engine.batchWidth block state r := by
  simp only [nextMatchBatch, returns_bind, Exec.returns_debugAssert, Exec.returns_assertUnchecked,
    Exec.returns_sub, returns_pure, decide_eq_true_eq]
  refine ⟨hstate, returns_mono (returns_and (hbatch state hstate) (hpaced state hstate)) ?_⟩
  intro r h
  obtain ⟨hspec, hcut⟩ := h
  have hlen := hspec.haystack_eq
  have hoffset := hspec.offset_le
  rw [← hlen] at hoffset
  exact ⟨by rw [hlen], hoffset, hspec.base_le.trans hoffset, hspec.base_le, hspec.span_le,
    hspec, hcut⟩

end SearchPlan

end MemchrN
