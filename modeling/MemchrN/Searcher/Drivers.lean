import MemchrN.Searcher.Iter
import MemchrN.Searcher.Kinds

namespace MemchrN

section Definitions

/-- A batch as its caller gets it: the marks, and the state they are relative to. -/
abbrev Batch := MatchedBitset × IterState

def Batch.offsets (batch : Batch) : List ℕ := (setBits batch.1).map (batch.2.matchBase + ·)

namespace SearchPlan

variable (plan : SearchPlan)

/-- The batches from a state to the end of its haystack. -/
def batchesFuel : ℕ → IterState → Exec (List Batch)
  | 0, _ => throw .outOfFuel
  | fuel + 1, state => do
    if state.scanOffset = state.haystack.length then return []
    let batch ← plan.nextMatchBatch state
    return batch :: (← batchesFuel fuel batch.2)

def batches (state : IterState) : Exec (List Batch) :=
  plan.batchesFuel (state.haystack.length + 1) state

/-- The loop of `batched_offsets`, which takes the marks of each batch bit by bit. -/
def batchedLoop : ℕ → IterState → List ℕ → Exec (List ℕ)
  | 0, _, _ => throw .outOfFuel
  | fuel + 1, state, offsets => do
    if state.scanOffset = state.haystack.length then return offsets
    let (bits, batch) ← plan.nextMatchBatch state
    Exec.assert (decide (state.scanOffset < batch.scanOffset))
    Exec.assert (decide (batch.scanOffset ≤ state.haystack.length))
    andThen (forSetBits bits
      (fun bit offsets => pure (.next (offsets ++ [batch.matchBase + bit]))) offsets)
      (batchedLoop fuel batch)

def batchedOffsets (haystack : List U8) : Exec (List ℕ) :=
  plan.batchedLoop (haystack.length + 1)
    { haystack := haystack, scanOffset := 0, matchBase := 0 } []

end SearchPlan

end Definitions

/-- The batches cover what was left to scan: their marks are its matches, they follow each other
block by block, only the last one may be empty, and there are no more of them than blocks. -/
structure BatchRun (p : U8 → Bool) (engine : Engine) (state : IterState) (batches : List Batch) :
    Prop where
  offsets : batches.flatMap Batch.offsets =
    fromPos (state.haystack.findIdxs p) state.scanOffset
  ordered : batches.Pairwise fun earlier later => earlier.2.scanOffset ≤ later.2.matchBase
  blocks : ∀ batch ∈ batches, BatchShape engine.batchWidth state batch
  nonzero : ∀ batch ∈ batches.dropLast, batch.1 ≠ 0#128
  length_le : batches.length ≤ engine.batchCount (state.haystack.length - state.scanOffset)

namespace BatchRun

variable {p : U8 → Bool} {engine : Engine} {state : IterState} {batch : Batch}
  {rest : List Batch}

theorem nil (hend : state.scanOffset = state.haystack.length) : BatchRun p engine state [] where
  offsets := by
    have hall : ∀ o ∈ state.haystack.findIdxs p, o < state.haystack.length := fun o ho =>
      clearFrom_length p _ o (mem_findIdxs.mp ho)
    rw [hend, fromPos_eq_nil hall]
    rfl
  ordered := .nil
  blocks := by simp
  nonzero := by simp
  length_le := Nat.zero_le _

/-- The matches to come are those of the batch and those behind it. -/
theorem offsets_append (hstate : state.scanOffset ≤ state.haystack.length)
    (hspec : BatchSpec p state batch) :
    fromPos (state.haystack.findIdxs p) state.scanOffset =
      batch.offsets ++ fromPos (batch.2.haystack.findIdxs p) batch.2.scanOffset := by
  -- an iterator that has just used up its batch
  let it : Iter := ⟨.ofNever, { state with matchBase := state.scanOffset }, 0⟩
  have hvalid : Iter.Valid .ofNever state.haystack p it :=
    ⟨rfl, rfl, le_rfl, hstate, by simp [it], by simp [it]⟩
  have hit : BatchSpec p it.state batch := { hspec with }
  obtain ⟨-, hsame⟩ := Iter.batch_pending hvalid rfl hit
  exact ((hsame.trans (Iter.pending_of_zero rfl)).symm :)

theorem cons (hmore : state.scanOffset < state.haystack.length)
    (hspec : BatchSpec p state batch) (hshape : BatchShape engine.batchWidth state batch)
    (hrest : BatchRun p engine batch.2 rest) :
    BatchRun p engine state (batch :: rest) := by
  have hlen : batch.2.haystack.length = state.haystack.length := by rw [hspec.haystack_eq]
  have hnext : StartsBlock engine.batchWidth state.haystack.length state.scanOffset
      batch.2.scanOffset := hshape.scanOffset_eq ▸ hshape.starts.next
  obtain ⟨hoffsets, hordered, hblocks, hnonzero, hle⟩ := hrest
  rw [hlen] at hle
  refine ⟨?_, List.pairwise_cons.mpr ⟨?_, hordered⟩, ?_, ?_, ?_⟩
  · rw [List.flatMap_cons, hoffsets, offsets_append hmore.le hspec]
  · intro later hlater
    exact (hblocks later hlater).starts.le
  · intro b hb
    rcases List.mem_cons.mp hb with rfl | hb
    · exact hshape
    · obtain ⟨hstarts, hend⟩ := hblocks b hb
      rw [hlen] at hstarts hend
      exact ⟨hnext.trans hstarts, hend⟩
  · intro b hb
    cases rest with
    | nil => simp at hb
    | cons next rest =>
      rw [List.dropLast_cons_cons, List.mem_cons] at hb
      rcases hb with rfl | hb
      · intro hzero
        rw [hspec.exhausted hzero, Nat.sub_self, engine.batchCount_zero] at hle
        simp at hle
      · exact hnonzero b hb
  · have hlt := engine.batch_cuts.blocks_lt hmore hshape.starts
    rw [← hshape.scanOffset_eq] at hlt
    rw [List.length_cons]
    omega

/-- Every batch but the last one holds a match. -/
theorem length_le_matches {batches : List Batch} (h : BatchRun p engine state batches) :
    batches.length ≤ (batches.flatMap Batch.offsets).length + 1 := by
  have hsum (l : List Batch) (hl : ∀ batch ∈ l, batch.1 ≠ 0#128) :
      l.length ≤ (l.flatMap Batch.offsets).length := by
    induction l with
    | nil => simp
    | cons batch l ih =>
      obtain ⟨hbatch, hl⟩ := List.forall_mem_cons.mp hl
      have hheld := congrArg List.length (setBits_cons hbatch)
      have := ih hl
      rw [List.flatMap_cons, List.length_append, Batch.offsets, List.length_map, List.length_cons]
      rw [List.length_cons] at hheld
      omega
  cases hlast : batches.getLast? with
  | none => simp [List.getLast?_eq_none_iff.mp hlast]
  | some last =>
    have hfront := hsum _ h.nonzero
    rw [← List.dropLast_append_getLast? last hlast, List.length_append, List.flatMap_append,
      List.length_append, List.length_singleton]
    omega

end BatchRun

namespace SearchPlan

variable {plan : SearchPlan} {p : U8 → Bool}
  (hbatch : plan.scanOps.BatchContract plan.kernelStorage p)

include hbatch

/-- Batch after batch, the run reaches the end: each turn leaves less to scan. -/
theorem batchesFuel_spec {block fuel : ℕ} {state : IterState} (hpaced : plan.PacedBy block)
    (hfuel : state.haystack.length < state.scanOffset + fuel)
    (hstate : state.scanOffset ≤ state.haystack.length) :
    Returns (plan.batchesFuel fuel state) (BatchRun p plan.engine state) := by
  induction fuel generalizing state with
  | zero => omega
  | succ fuel ih =>
    simp only [batchesFuel, returns_ite, returns_bind, returns_pure]
    refine ⟨BatchRun.nil, ?_⟩
    intro hmore
    apply returns_mono (nextMatchBatch_paced hpaced hbatch hstate)
    intro batch h
    obtain ⟨hspec, hcut⟩ := h
    have hlen : batch.2.haystack.length = state.haystack.length := by rw [hspec.haystack_eq]
    have hmoved := hspec.advances.resolve_right hmore
    apply returns_mono (ih (by omega) (by rw [hlen]; exact hspec.offset_le))
    intro rest hrest
    exact hrest.cons (by omega) hspec hcut.toBatchShape

/-- The driver's assertions hold, and it collects the offsets of the batches. -/
theorem batchedLoop_spec {fuel : ℕ} {state : IterState} (offsets : List ℕ)
    (hfuel : state.haystack.length < state.scanOffset + fuel)
    (hstate : state.scanOffset ≤ state.haystack.length) :
    Returns (plan.batchedLoop fuel state offsets) fun r =>
      r = offsets ++ fromPos (state.haystack.findIdxs p) state.scanOffset := by
  induction fuel generalizing state offsets with
  | zero => omega
  | succ fuel ih =>
    simp only [batchedLoop, returns_ite, returns_bind, returns_pure, Exec.returns_assert,
      returns_andThen, decide_eq_true_eq]
    constructor
    · intro hend
      have hnil : BatchRun p plan.engine state [] := .nil hend
      rw [← hnil.offsets, List.flatMap_nil, List.append_nil]
    · intro hmore
      apply returns_mono (nextMatchBatch_spec hbatch hstate)
      intro batch hspec
      have hlen : batch.2.haystack.length = state.haystack.length := by rw [hspec.haystack_eq]
      have hmoved := hspec.advances.resolve_right hmore
      refine ⟨hmoved, hspec.offset_le, ?_⟩
      rw [forSetBits_eq_forEach, forEach_push, returns_pure, flow_sat_next]
      apply returns_mono (ih _ (by omega) (by rw [hlen]; exact hspec.offset_le))
      intro r hr
      rw [hr, BatchRun.offsets_append hstate hspec, Batch.offsets, List.append_assoc]

theorem batchedOffsets_eq (haystack : List U8) :
    plan.batchedOffsets haystack = .ok (haystack.findIdxs p) := by
  apply returns_eq
  apply returns_mono (batchedLoop_spec hbatch [] (by simp) (Nat.zero_le _))
  intro r hr
  rw [hr, List.nil_append, fromPos_zero]

end SearchPlan

namespace Searcher

variable [Target] [Host]

/-- The batches of any selected plan, taken one after the other from any scan offset, are cut from
the haystack block by block as the engine's widths and their number lay down; they never overlap,
all but the last hold a match, and their marks are exactly the matches from that offset on. So is
what the driver collects. -/
theorem batches_cover_haystack (set : ByteSet) (backend : Backend) : ∃ searcher,
    fromByteSetWithBackend set backend = .ok searcher ∧
      (∀ haystack,
        searcher.search.batchedOffsets haystack = .ok (haystack.findIdxs set.contains)) ∧
      ∀ state : IterState, state.scanOffset ≤ state.haystack.length → ∃ batches,
        searcher.search.batches state = .ok batches ∧
        batches.flatMap Batch.offsets =
          fromPos (state.haystack.findIdxs set.contains) state.scanOffset ∧
        batches.Pairwise (fun earlier later => earlier.2.scanOffset ≤ later.2.matchBase) ∧
        (∀ batch ∈ batches, state.scanOffset ≤ batch.2.matchBase ∧ batch.2.scanOffset =
          batch.2.matchBase +
            searcher.search.engine.batchWidth (state.haystack.length - batch.2.matchBase)) ∧
        (∀ batch ∈ batches.dropLast, batch.1 ≠ 0#128) ∧
        batches.length ≤
          searcher.search.engine.batchCount (state.haystack.length - state.scanOffset) ∧
        batches.length ≤ (state.haystack.drop state.scanOffset).countP set.contains + 1 := by
  obtain ⟨searcher, hrun, haccepts, hplanned⟩ :=
    returns_and (fromByteSetWithBackend_spec set backend) (fromByteSetWithBackend_planned set backend)
  have hbatch := haccepts.upholds.nextMatchBatch
  obtain ⟨block, hpaced⟩ := hplanned.paced
  refine ⟨searcher, hrun, SearchPlan.batchedOffsets_eq hbatch, ?_⟩
  intro state hstate
  obtain ⟨batches, hbatches, h⟩ :=
    SearchPlan.batchesFuel_spec hbatch hpaced
      (show state.haystack.length < state.scanOffset + (state.haystack.length + 1) by omega) hstate
  refine ⟨batches, hbatches, h.offsets, h.ordered, ?_, h.nonzero, h.length_le, ?_⟩
  · intro batch hmem
    exact ⟨(h.blocks batch hmem).starts.le, (h.blocks batch hmem).scanOffset_eq⟩
  · rw [← length_fromPos_findIdxs _ _ hstate, ← h.offsets]
    exact h.length_le_matches

end Searcher

end MemchrN
