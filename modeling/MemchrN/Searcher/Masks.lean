import MemchrN.Framework.Relational
import MemchrN.Searcher.Debug
import MemchrN.Searcher.Session

namespace MemchrN

section Definitions

/-- The haystacks match in the same places. -/
def SameMask (p : U8 → Bool) (haystack haystack' : List U8) : Prop :=
  haystack.map p = haystack'.map p

/-- The states differ in nothing but the bytes of haystacks that match in the same places. -/
structure IterState.Twin (p : U8 → Bool) (state state' : IterState) : Prop where
  mask : SameMask p state.haystack state'.haystack
  scanOffset_eq : state.scanOffset = state'.scanOffset
  matchBase_eq : state.matchBase = state'.matchBase

/-- Iterators of one searcher that differ in nothing but the bytes of their haystacks. -/
structure Iter.Twin (finder : Searcher) (p : U8 → Bool) (it it' : Iter) : Prop where
  finder_eq : it.finder = finder
  finder_eq' : it'.finder = finder
  state : it.state.Twin p it'.state
  matchBits_eq : it.matchBits = it'.matchBits

/-- The same answer, and twins left behind. -/
def Iter.TwinStep {α : Type} (finder : Searcher) (p : U8 → Bool) (r r' : α × Iter) : Prop :=
  r.1 = r'.1 ∧ r.2.Twin finder p r'.2

end Definitions

namespace SameMask

variable {p : U8 → Bool} {haystack haystack' : List U8} (h : SameMask p haystack haystack')

include h

theorem length_eq : haystack.length = haystack'.length := by
  simpa using congrArg List.length h

theorem matchSet_eq : matchSet p haystack = matchSet p haystack' := by
  have hmem (xs : List U8) (o : ℕ) : o ∈ matchSet p xs ↔ (xs.map p)[o]? = some true := by
    simp [matchSet, Option.map_eq_some_iff]
  ext o
  rw [hmem, hmem, h]

theorem findIdxs_eq : haystack.findIdxs p = haystack'.findIdxs p := by
  refine List.Pairwise.eq_of_mem_iff List.pairwise_findIdxs List.pairwise_findIdxs ?_
  intro o
  rw [mem_findIdxs, mem_findIdxs, h.matchSet_eq]

theorem drop (n : ℕ) : SameMask p (haystack.drop n) (haystack'.drop n) := by
  rw [SameMask, List.map_drop, List.map_drop, h]

theorem countP_eq : haystack.countP p = haystack'.countP p := by
  have hcount (xs : List U8) : xs.countP p = (xs.map p).countP id := by
    rw [List.countP_map]
    rfl
  rw [hcount, hcount, h]

end SameMask

section Batches

variable {p : U8 → Bool} {state state' : IterState} {r r' : MatchedBitset × IterState}

/-- A batch that is not empty holds a match within its bounds. -/
theorem BatchSpec.exists_match (h : BatchSpec p state r) (hne : r.1 ≠ 0#128) :
    ∃ o ∈ matchSet p state.haystack, r.2.matchBase ≤ o ∧ o < r.2.scanOffset := by
  obtain ⟨k, hk⟩ := Set.nonempty_iff_ne_empty.mpr fun h => hne (bitSet_eq_empty.mp h)
  obtain ⟨hlt, hmatch⟩ := (h.bits_iff k).mp hk
  exact ⟨_, hmatch, Nat.le_add_right _ _, hlt⟩

/-- Behind an empty batch there is nothing to find. -/
theorem BatchSpec.clear_of_zero (h : BatchSpec p state r) (hzero : r.1 = 0#128) :
    ∀ o ∈ matchSet p state.haystack, o < state.scanOffset := by
  intro o ho
  by_contra hge
  have hbase := h.skips_none o ho (Nat.le_of_not_lt hge)
  have hlen : o < state.haystack.length := clearFrom_length p _ o ho
  have hbit := (h.bits_iff (o - r.2.matchBase)).mpr (by
    rw [Nat.add_sub_cancel' hbase, h.exhausted hzero]
    exact ⟨hlen, ho⟩)
  rw [hzero] at hbit
  simp at hbit

section Twins

variable {width : ℕ → ℕ} {block : ℕ} (htwin : state.Twin p state') (hspec : BatchSpec p state r)
  (hspec' : BatchSpec p state' r')

include htwin hspec hspec'

theorem batch_zero (hzero : r.1 = 0#128) : r'.1 = 0#128 := by
  by_contra hne
  obtain ⟨o, ho, hbase, -⟩ := hspec'.exists_match hne
  rw [← htwin.mask.matchSet_eq] at ho
  have hlt := hspec.clear_of_zero hzero o ho
  have hge := hspec'.base_ge
  rw [← htwin.scanOffset_eq] at hge
  omega

/-- The first match ahead lies in both batches, so they are the same block of the cut; and both are
empty at the same place. -/
theorem batch_matchBase (hcut : BatchCut width block state r)
    (hcut' : BatchCut width block state' r') : r.2.matchBase = r'.2.matchBase := by
  have hlen := htwin.mask.length_eq
  have hoffset := htwin.scanOffset_eq
  have hmatch := htwin.mask.matchSet_eq
  by_cases hzero : r.1 = 0#128
  · have hend := hcut.empty_at hzero
    have hend' := hcut'.empty_at (batch_zero htwin hspec hspec' hzero)
    rw [← hlen, ← hoffset] at hend'
    omega
  · have hzero' : r'.1 ≠ 0#128 := fun h =>
      hzero (batch_zero ⟨htwin.mask.symm, hoffset.symm, htwin.matchBase_eq.symm⟩ hspec' hspec h)
    obtain ⟨o, ho, hbase, hlt⟩ := hspec.exists_match hzero
    obtain ⟨o', ho', hbase', hlt'⟩ := hspec'.exists_match hzero'
    have hskip' := hspec'.skips_none o (hmatch ▸ ho) (by have := hspec.base_ge; omega)
    have hskip := hspec.skips_none o' (hmatch ▸ ho') (by have := hspec'.base_ge; omega)
    have hstarts' := hcut'.starts
    have hstop := hcut.scanOffset_eq
    have hstop' := hcut'.scanOffset_eq
    rw [← hlen, ← hoffset] at hstarts'
    rw [← hlen] at hstop'
    exact hcut.starts.unique hstarts' (o := min o o') (by omega) (by omega) (by omega) (by omega)

/-- The contract and the cut leave no choice: the matches determine the batch. -/
theorem batch_twin (hcut : BatchCut width block state r) (hcut' : BatchCut width block state' r') :
    r.1 = r'.1 ∧ r.2.Twin p r'.2 := by
  have hbase := batch_matchBase htwin hspec hspec' hcut hcut'
  have hoffset : r.2.scanOffset = r'.2.scanOffset := by
    rw [hcut.scanOffset_eq, hcut'.scanOffset_eq, htwin.mask.length_eq, hbase]
  refine ⟨?_, ?_, hoffset, hbase⟩
  · apply BitVec.eq_of_getLsbD_eq
    intro k _
    rw [Bool.eq_iff_iff, hspec.bits_iff, hspec'.bits_iff, hbase, hoffset, htwin.mask.matchSet_eq]
  · rw [hspec.haystack_eq, hspec'.haystack_eq]
    exact htwin.mask

end Twins

/-- Outside the contract both fail alike. -/
theorem SearchPlan.nextMatchBatch_lockstep {plan : SearchPlan} (hpaced : plan.Paced)
    (hbatch : plan.scanOps.BatchContract plan.kernelStorage p) (htwin : state.Twin p state') :
    Lockstep (fun r r' => r.1 = r'.1 ∧ r.2.Twin p r'.2) (plan.nextMatchBatch state)
      (plan.nextMatchBatch state') := by
  obtain ⟨block, hpaced⟩ := hpaced
  have hlen := htwin.mask.length_eq
  have hoffset := htwin.scanOffset_eq
  by_cases hstate : state.scanOffset ≤ state.haystack.length
  · obtain ⟨r, hrun, hspec, hcut⟩ := nextMatchBatch_paced hpaced hbatch hstate
    have hstate' : state'.scanOffset ≤ state'.haystack.length := by omega
    obtain ⟨r', hrun', hspec', hcut'⟩ := nextMatchBatch_paced hpaced hbatch hstate'
    rw [hrun, hrun']
    exact .ok (batch_twin htwin hspec hspec' hcut hcut')
  · rw [nextMatchBatch, nextMatchBatch, ← hlen, ← hoffset, decide_eq_false hstate]
    exact .error .assertion

end Batches

namespace Iter

variable {finder : Searcher} {p : U8 → Bool} {it it' : Iter}

theorem advanceTo_lockstep (h : it.Twin finder p it') (idx : ℕ) :
    Lockstep (Twin finder p) (it.advanceTo idx) (it'.advanceTo idx) := by
  obtain ⟨hfinder, hfinder', ⟨hmask, hoffset, hbase⟩, hbits⟩ := h
  rw [advanceTo, advanceTo, ← hoffset, ← hbase, ← hbits, ← hmask.length_eq]
  apply lockstep_ite
  · exact .ok ⟨hfinder, hfinder', ⟨hmask, rfl, rfl⟩, rfl⟩
  · apply lockstep_ite
    · apply lockstep_seq
      intro skipped
      apply lockstep_seq
      intro keep
      exact .ok ⟨hfinder, hfinder', ⟨hmask, hoffset, hbase⟩, rfl⟩
    · exact .ok ⟨hfinder, hfinder', ⟨hmask, hoffset, hbase⟩, hbits⟩

theorem dropLowest_lockstep (h : it.Twin finder p it') :
    Lockstep (Twin finder p) it.dropLowest it'.dropLowest := by
  obtain ⟨hfinder, hfinder', hstate, hbits⟩ := h
  rw [dropLowest, dropLowest, ← hbits]
  apply lockstep_seq
  intro below
  exact .ok ⟨hfinder, hfinder', hstate, rfl⟩

theorem takeLowest_lockstep (h : it.Twin finder p it') :
    Lockstep (TwinStep finder p) it.takeLowest it'.takeLowest := by
  rw [takeLowest, takeLowest, ← h.matchBits_eq]
  apply lockstep_seq
  intro _
  apply lockstep_bind (dropLowest_lockstep h)
  intro it it' h
  rw [← h.state.matchBase_eq, ← h.state.mask.length_eq]
  apply lockstep_seq
  intro _
  exact .ok ⟨rfl, h⟩

/-- The end of `next` and of `nth`. -/
theorem yieldLowest_lockstep (h : it.Twin finder p it') :
    Lockstep (TwinStep finder p)
      (do let (res, it) ← it.takeLowest
          return (some res, it))
      (do let (res, it) ← it'.takeLowest
          return (some res, it)) := by
  apply lockstep_bind (takeLowest_lockstep h)
  intro r r' hr
  obtain ⟨hres, htwin⟩ := hr
  exact .ok ⟨congrArg some hres, htwin⟩

theorem count_lockstep (hcount : finder.search.scanOps.CountContract finder.search.kernelStorage p)
    (h : it.Twin finder p it') : Lockstep (· = ·) it.count it'.count := by
  have hunscanned : Lockstep (SameMask p)
      (Exec.getUncheckedFrom it.state.haystack it.state.scanOffset)
      (Exec.getUncheckedFrom it'.state.haystack it'.state.scanOffset) := by
    rw [Exec.getUncheckedFrom, Exec.getUncheckedFrom, ← h.state.scanOffset_eq,
      ← h.state.mask.length_eq]
    apply lockstep_ite
    · exact .ok (SameMask.drop h.state.mask _)
    · exact .error _
  rw [count, count, ← h.matchBits_eq, h.finder_eq, h.finder_eq']
  apply lockstep_bind hunscanned
  intro unscanned unscanned' hmask
  have hempty : unscanned.isEmpty = unscanned'.isEmpty := by
    rw [Bool.eq_iff_iff, List.isEmpty_iff_length_eq_zero, List.isEmpty_iff_length_eq_zero,
      hmask.length_eq]
  rw [hempty]
  apply lockstep_ite
  · exact .ok rfl
  · have hcounted : finder.search.countAll unscanned = finder.search.countAll unscanned' := by
      rw [returns_eq (SearchPlan.countAll_spec hcount unscanned), hmask.countP_eq,
        returns_eq (SearchPlan.countAll_spec hcount unscanned')]
    rw [hcounted]
    exact lockstep_self _

section Scanning

variable (hpaced : finder.search.Paced)
  (hbatch : finder.search.scanOps.BatchContract finder.search.kernelStorage p)

include hpaced hbatch

theorem refill_lockstep (h : it.Twin finder p it') :
    Lockstep (TwinStep finder p) it.refill it'.refill := by
  obtain ⟨hfinder, hfinder', hstate, hbits⟩ := h
  rw [refill, refill, ← hstate.scanOffset_eq, ← hstate.mask.length_eq, hfinder, hfinder']
  apply lockstep_ite
  · exact .ok ⟨rfl, hfinder, hfinder', hstate, hbits⟩
  · apply lockstep_bind (SearchPlan.nextMatchBatch_lockstep hpaced hbatch hstate)
    intro r r' hr
    obtain ⟨hsame, htwin⟩ := hr
    refine .ok ⟨?_, rfl, rfl, htwin, hsame⟩
    rw [hsame]

theorem next_lockstep (h : it.Twin finder p it') :
    Lockstep (TwinStep finder p) it.next it'.next := by
  rw [next, next, ← h.matchBits_eq]
  apply lockstep_ite
  · apply lockstep_bind (refill_lockstep hpaced hbatch h)
    intro r r' hr
    obtain ⟨filled, it⟩ := r
    obtain ⟨filled', it'⟩ := r'
    obtain ⟨rfl, htwin⟩ := hr
    cases filled with
    | none => exact .ok ⟨rfl, htwin⟩
    | some u => exact yieldLowest_lockstep htwin
  · exact yieldLowest_lockstep h

theorem skipBatches_lockstep (fuel n : ℕ) (h : it.Twin finder p it') :
    Lockstep (Flow.Both (TwinStep finder p) (TwinStep finder p)) (skipBatches fuel n it)
      (skipBatches fuel n it') := by
  induction fuel generalizing n it it' with
  | zero => exact .error .outOfFuel
  | succ fuel ih =>
    rw [skipBatches, skipBatches, ← h.matchBits_eq]
    apply lockstep_ite
    · exact .ok (.next ⟨rfl, h⟩)
    · apply lockstep_seq
      intro remaining
      have hempty : Twin finder p { it with matchBits := 0 } { it' with matchBits := 0 } :=
        ⟨h.finder_eq, h.finder_eq', h.state, rfl⟩
      apply lockstep_bind (refill_lockstep hpaced hbatch hempty)
      intro r r' hr
      obtain ⟨filled, it⟩ := r
      obtain ⟨filled', it'⟩ := r'
      obtain ⟨rfl, htwin⟩ := hr
      cases filled with
      | none => exact .ok (.ret ⟨rfl, htwin⟩)
      | some u => exact ih remaining htwin

theorem nth_lockstep (n : ℕ) (h : it.Twin finder p it') :
    Lockstep (TwinStep finder p) (it.nth n) (it'.nth n) := by
  rw [nth, nth, ← h.state.mask.length_eq]
  apply lockstep_andThen (skipBatches_lockstep hpaced hbatch _ n h)
  intro s s' hs
  obtain ⟨remaining, it⟩ := s
  obtain ⟨remaining', it'⟩ := s'
  obtain ⟨rfl, htwin⟩ := hs
  apply lockstep_andThen (Q := Twin finder p)
  · apply lockstep_forEach ?_ _ htwin
    intro _ it it' htwin
    apply lockstep_bind (dropLowest_lockstep htwin)
    intro it it' htwin
    exact .ok (.next htwin)
  · intro it it' htwin
    exact yieldLowest_lockstep htwin

theorem perform_lockstep (op : Operation) (h : it.Twin finder p it') :
    Lockstep (TwinStep finder p) (it.perform op) (it'.perform op) := by
  cases op with
  | next =>
    apply lockstep_bind (next_lockstep hpaced hbatch h)
    intro r r' hr
    exact .ok ⟨congrArg some hr.1, hr.2⟩
  | nth n =>
    apply lockstep_bind (nth_lockstep hpaced hbatch n h)
    intro r r' hr
    exact .ok ⟨congrArg some hr.1, hr.2⟩
  | advanceTo idx =>
    apply lockstep_bind (advanceTo_lockstep h idx)
    intro it it' h
    exact .ok ⟨rfl, h⟩

theorem collectFuel_lockstep (fuel : ℕ) (h : it.Twin finder p it') :
    Lockstep (· = ·) (collectFuel fuel it) (collectFuel fuel it') := by
  induction fuel generalizing it it' with
  | zero => exact .error .outOfFuel
  | succ fuel ih =>
    apply lockstep_bind (next_lockstep hpaced hbatch h)
    intro r r' hr
    obtain ⟨item, it⟩ := r
    obtain ⟨item', it'⟩ := r'
    obtain ⟨rfl, htwin⟩ := hr
    cases item with
    | none => exact .ok rfl
    | some item =>
      apply lockstep_bind (ih htwin)
      intro rest rest' hrest
      exact .ok (congrArg (item :: ·) hrest)

theorem answer_lockstep (hcount : finder.search.scanOps.CountContract finder.search.kernelStorage p)
    (call : IterCall) (h : it.Twin finder p it') :
    Lockstep (TwinStep finder p) (it.answer call) (it'.answer call) := by
  cases call with
  | perform op =>
    apply lockstep_bind (perform_lockstep hpaced hbatch op h)
    intro r r' hr
    exact .ok ⟨congrArg Reply.ofAnswer hr.1, hr.2⟩
  | count =>
    apply lockstep_bind (count_lockstep hcount h)
    intro total total' htotal
    exact .ok ⟨congrArg Reply.total htotal, h⟩
  | collect =>
    rw [answer, answer, collect, collect, ← h.state.mask.length_eq]
    apply lockstep_bind (collectFuel_lockstep hpaced hbatch _ h)
    intro found found' hfound
    exact .ok ⟨congrArg Reply.offsets hfound, h⟩

end Scanning

theorem Twin.view_eq (h : it.Twin finder p it') : it.view = it'.view := by
  rw [view, view, h.finder_eq, h.finder_eq', h.matchBits_eq, h.state.mask.length_eq,
    h.state.scanOffset_eq, h.state.matchBase_eq]

theorem Twin.sizeHint_eq (h : it.Twin finder p it') : it.sizeHint = it'.sizeHint := by
  rw [sizeHint, sizeHint, h.matchBits_eq, h.state.mask.length_eq, h.state.scanOffset_eq]

/-- The text of an iterator shows how long its haystack is, but none of its bytes. -/
theorem Twin.debug_eq (h : it.Twin finder p it') (levelText : Bool → Level → Text)
    (alternate : Bool) : it.debug levelText alternate = it'.debug levelText alternate := by
  rw [debug, debug, h.finder_eq, h.finder_eq', h.matchBits_eq, h.state.mask.length_eq,
    h.state.scanOffset_eq, h.state.matchBase_eq]

end Iter

section Searchers

variable [Target] [Host]

theorem Construction.run_paced (how : Construction) :
    Returns how.run fun finder => finder.search.Paced := by
  have hset (set : ByteSet) (backend : Backend) :
      Returns (Searcher.fromByteSetWithBackend set backend) fun finder => finder.search.Paced :=
    returns_mono (Searcher.fromByteSetWithBackend_planned set backend) fun _ h => h.paced
  cases how with
  | fromByteSet set backend => exact hset _ _
  | new bytes backend => exact hset _ _
  | fromRange range backend => exact hset _ _
  | fromNotByte byte backend => exact (returns_pure _ _).mpr (Searcher.ofNotByte_planned byte).paced
  | fromIter items => exact hset _ _

/-- Of a haystack a searcher sees only which bytes are in its set. Over haystacks that match in the
same places it finds the same, and after any calls its iterators have given the same answers, are
in the same state, hint at the same sizes and show the same text. -/
theorem haystack_bytes_are_hidden (how : Construction) : ∃ finder, how.run = .ok finder ∧
    ∀ haystack haystack' : List U8,
      List.Forall₂ (fun b b' => b ∈ how.denote ↔ b' ∈ how.denote) haystack haystack' →
      finder.find haystack = finder.find haystack' ∧
      finder.rfind haystack = finder.rfind haystack' ∧
      ∀ calls : List IterCall, ∃ replies it it',
        runAll Iter.answer calls (finder.iter haystack) = .ok (replies, it) ∧
        runAll Iter.answer calls (finder.iter haystack') = .ok (replies, it') ∧
        it.view = it'.view ∧ it.sizeHint = it'.sizeHint ∧
        ∀ levelText alternate, it.debug levelText alternate = it'.debug levelText alternate := by
  obtain ⟨finder, hrun, ⟨engine, set, haccepts, hset⟩, hpaced⟩ :=
    returns_and how.run_spec how.run_paced
  refine ⟨finder, hrun, ?_⟩
  intro haystack haystack' hsame
  have hmask : SameMask set.contains haystack haystack' := by
    rw [SameMask, ← List.forall₂_eq_eq_eq, List.forall₂_map_left_iff, List.forall₂_map_right_iff]
    apply hsame.imp
    intro b b' h
    rw [← hset] at h
    exact Bool.eq_iff_iff.mpr h
  refine ⟨?_, ?_, ?_⟩
  · rw [Searcher.find_eq haccepts, Searcher.find_eq haccepts, hmask.findIdxs_eq]
  · rw [Searcher.rfind_eq haccepts, Searcher.rfind_eq haccepts, hmask.findIdxs_eq]
  · intro calls
    obtain ⟨hbatch, hcount, -, -⟩ := haccepts.upholds
    have hstart : (finder.iter haystack).Twin finder set.contains (finder.iter haystack') :=
      ⟨rfl, rfl, ⟨hmask, rfl, rfl⟩, rfl⟩
    have hstep := lockstep_runAll (fun call it it' htwin =>
      Iter.answer_lockstep hpaced hbatch hcount call htwin) calls hstart
    obtain ⟨⟨replies, it⟩, hreplies, -⟩ :=
      Iter.answer_simulates.runAll calls (Searcher.iter_holds haccepts.upholds haystack)
    obtain ⟨⟨replies', it'⟩, hreplies', hout, htwin⟩ := lockstep_returns hstep hreplies
    obtain rfl : replies = replies' := hout
    exact ⟨replies, it, it', hreplies, hreplies', htwin.view_eq, htwin.sizeHint_eq,
      htwin.debug_eq⟩

end Searchers

end MemchrN
