import MemchrN.Searcher.Cursor
import MemchrN.Search.Plan

namespace MemchrN

/-- Iterates over the offsets of the bytes matched by a searcher. -/
structure Iter where
  finder : Searcher
  state : IterState
  matchBits : MatchedBitset

def Searcher.iter (finder : Searcher) (haystack : List U8) : Iter where
  finder := finder
  state := { haystack := haystack, scanOffset := 0, matchBase := 0 }
  matchBits := 0

/-- `usize` on the targets modelled. -/
abbrev usizeBits : ℕ := 64

namespace Iter

variable (it : Iter)

def advanceTo (idx : ℕ) : Exec Iter :=
  if it.state.scanOffset ≤ idx then
    let scanOffset := min idx it.state.haystack.length
    pure { it with
      matchBits := 0
      state := { it.state with scanOffset := scanOffset, matchBase := scanOffset } }
  else if it.state.matchBase < idx then do
    let skipped ← Exec.sub idx it.state.matchBase
    let keep ← Exec.shl (BitVec.allOnes matchedBits) skipped
    return { it with matchBits := it.matchBits &&& keep }
  else pure it

def refill : Exec (Option Unit × Iter) := do
  if it.state.scanOffset = it.state.haystack.length then return (none, it)
  let (matchBits, state) ← it.finder.search.nextMatchBatch it.state
  let it := { it with state := state, matchBits := matchBits }
  return (if matchBits ≠ 0#128 then some () else none, it)

/-- `match_bits &= match_bits - 1`. -/
def dropLowest : Exec Iter := do
  let below ← Exec.subWord it.matchBits 1
  return { it with matchBits := it.matchBits &&& below }

def takeLowest : Exec (ℕ × Iter) := do
  Exec.debugAssert (it.matchBits != 0#128)
  let bit := trailingZeros it.matchBits
  let it ← it.dropLowest
  let res := it.state.matchBase + bit
  Exec.assertUnchecked (decide (res < it.state.haystack.length))
  return (res, it)

def next : Exec (Option ℕ × Iter) := do
  let (filled, it) ← if it.matchBits = 0#128 then it.refill else pure (some (), it)
  match filled with
  | none => return (none, it)
  | some () =>
    let (res, it) ← it.takeLowest
    return (some res, it)

def sizeHint : Exec (ℕ × Option ℕ) := do
  let min := countOnes it.matchBits
  let unscanned ← Exec.sub it.state.haystack.length it.state.scanOffset
  return (min, if min + unscanned < 2 ^ usizeBits then some (min + unscanned) else none)

def count : Exec ℕ := do
  let total := countOnes it.matchBits
  let unscanned ← Exec.getUncheckedFrom it.state.haystack it.state.scanOffset
  if unscanned.isEmpty then return total
  let counted ← it.finder.search.countAll unscanned
  return total + counted

/-- The loop of `nth`: whole batches are skipped until one holds more than `remaining`. -/
def skipBatches : ℕ → ℕ → Iter → Exec (Flow (Option ℕ × Iter) (ℕ × Iter))
  | 0, _, _ => throw .outOfFuel
  | fuel + 1, remaining, it => do
    let held := countOnes it.matchBits
    if held > remaining then return .next (remaining, it)
    let remaining ← Exec.sub remaining held
    let (filled, it) ← { it with matchBits := 0 }.refill
    match filled with
    | none => return .ret (none, it)
    | some () => skipBatches fuel remaining it

/-- Every refill advances the scan, which bounds the turns of the loop. -/
def nth (n : ℕ) : Exec (Option ℕ × Iter) :=
  andThen (skipBatches (it.state.haystack.length + 1) n it) fun (remaining, it) =>
    andThen (forEach (fun _ it => do
      let it ← it.dropLowest
      return .next it) (List.range remaining) it) fun it => do
      let (res, it) ← it.takeLowest
      return (some res, it)

/-- `collect`: `next` until `None`, for at most `fuel` items. -/
def collectFuel : ℕ → Iter → Exec (List ℕ)
  | 0, _ => throw .outOfFuel
  | fuel + 1, it => do
    let (item, it) ← it.next
    match item with
    | none => return []
    | some item => return item :: (← collectFuel fuel it)

def collect : Exec (List ℕ) := collectFuel (it.state.haystack.length + 1) it

def perform (it : Iter) : Operation → Exec (Answer × Iter)
  | .next => do
    let (item, it) ← it.next
    return (some item, it)
  | .nth n => do
    let (item, it) ← it.nth n
    return (some item, it)
  | .advanceTo idx => do
    let it ← it.advanceTo idx
    return (none, it)

/-- The iterator belongs to this searcher and haystack, and its batch lies within bounds and holds
matches only. -/
structure Valid (finder : Searcher) (haystack : List U8) (p : U8 → Bool) (it : Iter) : Prop where
  finder_eq : it.finder = finder
  haystack_eq : it.state.haystack = haystack
  base_le : it.state.matchBase ≤ it.state.scanOffset
  offset_le : it.state.scanOffset ≤ haystack.length
  span_le : it.state.scanOffset - it.state.matchBase ≤ matchedBits
  bits : ∀ k, it.matchBits.getLsbD k = true → it.state.matchBase + k < it.state.scanOffset ∧
    it.state.matchBase + k ∈ matchSet p haystack

/-- The matches still to come: those held in the batch, then those not yet scanned for. -/
def pending (p : U8 → Bool) (it : Iter) : List ℕ :=
  (setBits it.matchBits).map (it.state.matchBase + ·) ++
    fromPos (it.state.haystack.findIdxs p) it.state.scanOffset

section Pending

variable {p : U8 → Bool} {finder : Searcher} {haystack : List U8} {it : Iter}

theorem mem_pending (o : ℕ) : o ∈ it.pending p ↔
    (∃ k, it.matchBits.getLsbD k = true ∧ it.state.matchBase + k = o) ∨
      o ∈ matchSet p it.state.haystack ∧ it.state.scanOffset ≤ o := by
  rw [pending, List.mem_append, List.mem_map, mem_fromPos, mem_findIdxs]
  simp only [mem_setBits]

theorem pending_of_zero (h : it.matchBits = 0#128) :
    it.pending p = fromPos (it.state.haystack.findIdxs p) it.state.scanOffset := by
  rw [pending, h, setBits_zero, List.map_nil, List.nil_append]

theorem pending_iter (finder : Searcher) (haystack : List U8) :
    (finder.iter haystack).pending p = haystack.findIdxs p := by
  rw [pending_of_zero rfl]
  exact fromPos_zero _

theorem valid_iter (finder : Searcher) (haystack : List U8) :
    Valid finder haystack p (finder.iter haystack) where
  finder_eq := rfl
  haystack_eq := rfl
  base_le := le_rfl
  offset_le := Nat.zero_le _
  span_le := Nat.zero_le _
  bits k h := by simp [Searcher.iter] at h

theorem Valid.pending_sorted (h : Valid finder haystack p it) :
    (it.pending p).Pairwise (· < ·) := by
  refine List.pairwise_append.mpr ⟨?_, ?_, ?_⟩
  · exact List.pairwise_map.mpr ((setBits_sorted _).imp fun h => Nat.add_lt_add_left h _)
  · exact List.pairwise_findIdxs.sublist (fromPos_sublist _ _)
  · intro a ha b hb
    obtain ⟨k, hk, rfl⟩ := List.mem_map.mp ha
    have h1 := (h.bits k (mem_setBits.mp hk)).1
    have h2 := (mem_fromPos.mp hb).2
    omega

/-- A valid iterator's matches to come are known from their membership. -/
theorem Valid.pending_eq (h : Valid finder haystack p it) {l : List ℕ} (hl : l.Pairwise (· < ·))
    (hmem : ∀ o, o ∈ it.pending p ↔ o ∈ l) : it.pending p = l :=
  h.pending_sorted.eq_of_mem_iff hl hmem

end Pending

section Operations

variable {p : U8 → Bool} {finder : Searcher} {haystack : List U8} {it : Iter}
  (hvalid : Valid finder haystack p it)

include hvalid

/-- An index at or past the scan offset: nothing of the batch is left, the scan starts over there. -/
theorem advanceTo_past {idx : ℕ} (hpast : it.state.scanOffset ≤ idx) :
    let it' : Iter := { it with
      matchBits := 0
      state := { it.state with
        scanOffset := min idx it.state.haystack.length
        matchBase := min idx it.state.haystack.length } }
    Valid finder haystack p it' ∧ it'.pending p = fromPos (it.pending p) idx := by
  intro it'
  have hvalid' : Valid finder haystack p it' := by
    obtain ⟨hfinder, hhaystack, -, -, -, -⟩ := hvalid
    exact ⟨hfinder, hhaystack, le_rfl, hhaystack ▸ min_le_right _ _, by simp [it'], by simp [it']⟩
  have hsorted := hvalid.pending_sorted.sublist (fromPos_sublist _ idx)
  refine ⟨hvalid', hvalid'.pending_eq hsorted fun o => ?_⟩
  rw [mem_fromPos, mem_pending, mem_pending]
  constructor
  · intro h
    rcases h with ⟨k, hk, -⟩ | ⟨ho, hmin⟩
    · simp [it'] at hk
    · have hlt : o < it.state.haystack.length := clearFrom_length _ _ o ho
      have hmin : min idx it.state.haystack.length ≤ o := hmin
      exact ⟨.inr ⟨ho, by omega⟩, by omega⟩
  · intro h
    obtain ⟨⟨k, hk, rfl⟩ | ⟨ho, -⟩, hidx⟩ := h
    · have hlt := (hvalid.bits k hk).1
      omega
    · exact .inr ⟨ho, (min_le_left _ _).trans hidx⟩

/-- An index inside the batch: its bits before the index are cleared. -/
theorem advanceTo_inside {idx : ℕ} (hbefore : idx < it.state.scanOffset) :
    let it' : Iter := { it with
      matchBits := it.matchBits &&& BitVec.allOnes 128 <<< (idx - it.state.matchBase) }
    Valid finder haystack p it' ∧ it'.pending p = fromPos (it.pending p) idx := by
  intro it'
  have hkeep (k : ℕ) : it'.matchBits.getLsbD k = true ↔
      it.matchBits.getLsbD k = true ∧ idx ≤ it.state.matchBase + k := by
    rw [BitVec.getLsbD_and, BitVec.getLsbD_shiftLeft, BitVec.getLsbD_allOnes, Bool.and_eq_true]
    apply and_congr_right
    intro hk
    have hlt := BitVec.lt_of_getLsbD hk
    simp
    omega
  have hvalid' : Valid finder haystack p it' := by
    obtain ⟨hfinder, hhaystack, hbase, hoffset, hspan, hbits⟩ := hvalid
    exact ⟨hfinder, hhaystack, hbase, hoffset, hspan, fun k hk => hbits k ((hkeep k).mp hk).1⟩
  have hsorted := hvalid.pending_sorted.sublist (fromPos_sublist _ idx)
  refine ⟨hvalid', hvalid'.pending_eq hsorted fun o => ?_⟩
  rw [mem_fromPos, mem_pending, mem_pending]
  constructor
  · intro h
    rcases h with ⟨k, hk, rfl⟩ | ⟨ho, hge⟩
    · exact ⟨.inl ⟨k, ((hkeep k).mp hk).1, rfl⟩, ((hkeep k).mp hk).2⟩
    · have hge : it.state.scanOffset ≤ o := hge
      exact ⟨.inr ⟨ho, hge⟩, by omega⟩
  · intro h
    obtain ⟨⟨k, hk, rfl⟩ | ho, hidx⟩ := h
    · exact .inl ⟨k, (hkeep k).mpr ⟨hk, hidx⟩, rfl⟩
    · exact .inr ho

theorem advanceTo_spec (idx : ℕ) : Returns (it.advanceTo idx) fun it' =>
    Valid finder haystack p it' ∧ it'.pending p = fromPos (it.pending p) idx := by
  have hspan : it.state.scanOffset - it.state.matchBase ≤ 128 := hvalid.span_le
  have hbase := hvalid.base_le
  simp only [advanceTo, returns_ite, returns_bind, returns_pure, Exec.returns_sub, Exec.returns_shl]
  refine ⟨advanceTo_past hvalid, fun hbefore => ⟨fun hinside => ⟨hinside.le, ?_, ?_⟩, ?_⟩⟩
  · show idx - it.state.matchBase < 128
    omega
  · exact advanceTo_inside hvalid (Nat.lt_of_not_le hbefore)
  · intro hbehind
    refine ⟨hvalid, (List.filter_eq_self.mpr fun o ho => ?_).symm⟩
    rcases (mem_pending o).mp ho with ⟨k, -, rfl⟩ | ⟨-, hge⟩
    · exact decide_eq_true (by omega)
    · exact decide_eq_true (by omega)

/-- No more matches can come than there are bytes. -/
theorem Valid.length_le : (it.pending p).length ≤ haystack.length := by
  have hsub : it.pending p ⊆ List.range haystack.length := fun o ho => by
    rw [List.mem_range]
    rcases (mem_pending o).mp ho with ⟨k, hk, rfl⟩ | ⟨ho, -⟩
    · exact clearFrom_length p _ _ (hvalid.bits k hk).2
    · exact clearFrom_length p _ _ (hvalid.haystack_eq ▸ ho)
  have hnodup : (it.pending p).Nodup := hvalid.pending_sorted.imp ne_of_lt
  simpa using (List.subperm_of_subset hnodup hsub).length_le

theorem length_pending : (it.pending p).length =
    countOnes it.matchBits + (it.state.haystack.drop it.state.scanOffset).countP p := by
  have hoffset : it.state.scanOffset ≤ it.state.haystack.length :=
    hvalid.haystack_eq ▸ hvalid.offset_le
  rw [pending, List.length_append, List.length_map, ← countOnes_eq_length,
    length_fromPos_findIdxs p _ hoffset]

theorem sizeHint_spec : Returns it.sizeHint fun r => r.1 ≤ (it.pending p).length ∧
    (haystack.length < 2 ^ usizeBits →
      ∃ hi, r.2 = some hi ∧ (it.pending p).length ≤ hi ∧ hi ≤ haystack.length) := by
  have hlen := length_pending hvalid
  have hcount : (it.state.haystack.drop it.state.scanOffset).countP p ≤
      it.state.haystack.length - it.state.scanOffset := by
    simpa using List.countP_le_length (p := p) (l := it.state.haystack.drop it.state.scanOffset)
  have hheld : countOnes it.matchBits ≤ it.state.scanOffset := by
    have hsub : (setBits it.matchBits).map (it.state.matchBase + ·) ⊆
        List.range it.state.scanOffset := fun o ho => by
      obtain ⟨k, hk, rfl⟩ := List.mem_map.mp ho
      exact List.mem_range.mpr (hvalid.bits k (mem_setBits.mp hk)).1
    have hnodup : ((setBits it.matchBits).map (it.state.matchBase + ·)).Nodup :=
      (List.pairwise_append.mp hvalid.pending_sorted).1.imp ne_of_lt
    simpa [countOnes_eq_length] using (List.subperm_of_subset hnodup hsub).length_le
  obtain ⟨-, rfl, -, hoffset, -, -⟩ := hvalid
  simp only [sizeHint, returns_bind, Exec.returns_sub, returns_pure]
  refine ⟨hoffset, by omega, fun husize => ?_⟩
  rw [if_pos (by omega)]
  exact ⟨_, rfl, by omega, by omega⟩

theorem count_spec (hcount : finder.search.scanOps.CountContract finder.search.kernelStorage p) :
    Returns it.count (· = (it.pending p).length) := by
  rw [length_pending hvalid]
  obtain ⟨rfl, rfl, -, hoffset, -, -⟩ := hvalid
  simp only [count, returns_bind, returns_ite, returns_pure, Exec.returns_getUncheckedFrom]
  refine ⟨hoffset, fun hempty => ?_, fun _ => ?_⟩
  · rw [List.isEmpty_iff.mp hempty]
    rfl
  · exact returns_mono (SearchPlan.countAll_spec hcount _) fun counted h => by rw [h]

/-- Removing the lowest bit removes the first match to come. -/
theorem dropLowest_spec (hne : it.matchBits ≠ 0#128) : Returns it.dropLowest fun it' =>
    Valid finder haystack p it' ∧ it'.state = it.state ∧
      setBits it.matchBits = trailingZeros it.matchBits :: setBits it'.matchBits ∧
      it.pending p = (it.state.matchBase + trailingZeros it.matchBits) :: it'.pending p := by
  have hone : (1 : MatchedBitset).toNat ≤ it.matchBits.toNat :=
    Nat.one_le_iff_ne_zero.mpr fun h => hne (BitVec.eq_of_toNat_eq h)
  have hcons := setBits_cons hne
  simp only [dropLowest, returns_bind, Exec.returns_subWord, returns_pure, true_and]
  refine ⟨hone, ?_, hcons, ?_⟩
  · obtain ⟨hfinder, hhaystack, hbase, hoffset, hspan, hbits⟩ := hvalid
    refine ⟨hfinder, hhaystack, hbase, hoffset, hspan, fun k hk => hbits k ?_⟩
    rw [BitVec.getLsbD_and, Bool.and_eq_true] at hk
    exact hk.1
  · rw [pending, hcons]
    rfl

theorem takeLowest_spec (hne : it.matchBits ≠ 0#128) : Returns it.takeLowest fun r =>
    Valid finder haystack p r.2 ∧ it.pending p = r.1 :: r.2.pending p := by
  simp only [takeLowest, returns_bind, Exec.returns_debugAssert, Exec.returns_assertUnchecked,
    returns_pure]
  refine ⟨by simpa using hne, ?_⟩
  apply returns_mono (dropLowest_spec hvalid hne)
  intro it' h
  obtain ⟨hvalid', hstate, -, hpending⟩ := h
  rw [hstate]
  refine ⟨decide_eq_true ?_, hvalid', hpending⟩
  have hbit : it.matchBits.getLsbD (trailingZeros it.matchBits) = true :=
    (isLeast_trailingZeros hne).1
  have h := (hvalid.bits _ hbit).1
  have := hvalid.offset_le
  rw [hvalid.haystack_eq]
  omega

end Operations

section Scanning

variable {p : U8 → Bool} {finder : Searcher} {haystack : List U8} {it : Iter}
  (hbatch : finder.search.scanOps.BatchContract finder.search.kernelStorage p)
  (hvalid : Valid finder haystack p it)

include hbatch hvalid

omit hbatch in
/-- Taking over a batch keeps the iterator valid and changes nothing to come. -/
theorem batch_pending (hzero : it.matchBits = 0#128) {r : MatchedBitset × IterState}
    (hr : BatchSpec p it.state r) :
    let it' : Iter := { it with state := r.2, matchBits := r.1 }
    Valid finder haystack p it' ∧ it'.pending p = it.pending p := by
  intro it'
  have hsorted := hvalid.pending_sorted
  obtain ⟨rfl, rfl, -, -, -, -⟩ := hvalid
  have hvalid' : Valid it.finder it.state.haystack p it' :=
    ⟨rfl, hr.haystack_eq, hr.base_le, hr.offset_le, hr.span_le, fun k => (hr.bits_iff k).mp⟩
  refine ⟨hvalid', hvalid'.pending_eq hsorted fun o => ?_⟩
  have hge := hr.base_ge
  have hle := hr.base_le
  rw [pending_of_zero hzero, mem_fromPos, mem_findIdxs, mem_pending]
  simp only [it', hr.bits_iff, hr.haystack_eq]
  constructor
  · intro h
    rcases h with ⟨k, ⟨-, hk⟩, rfl⟩ | ⟨ho, hlate⟩
    · exact ⟨hk, by omega⟩
    · exact ⟨ho, by omega⟩
  · intro h
    obtain ⟨ho, hscan⟩ := h
    have hbase := hr.skips_none o ho hscan
    rcases Nat.lt_or_ge o r.2.scanOffset with hlt | hge
    · refine .inl ⟨o - r.2.matchBase, ?_, Nat.add_sub_cancel' hbase⟩
      rw [Nat.add_sub_cancel' hbase]
      exact ⟨hlt, ho⟩
    · exact .inr ⟨ho, hge⟩

omit hbatch hvalid in
theorem pending_exhausted (hzero : it.matchBits = 0#128)
    (hend : it.state.scanOffset = it.state.haystack.length) : it.pending p = [] := by
  have hall : ∀ o ∈ it.state.haystack.findIdxs p, o < it.state.haystack.length := fun o ho =>
    clearFrom_length p _ o (mem_findIdxs.mp ho)
  rw [pending_of_zero hzero, hend]
  exact fromPos_eq_nil hall

/-- Scanning for another batch changes nothing to come; it fails only when nothing is. -/
theorem refill_spec (hzero : it.matchBits = 0#128) : Returns it.refill fun r =>
    Valid finder haystack p r.2 ∧ r.2.pending p = it.pending p ∧
      match r.1 with
      | none => it.pending p = []
      | some () => r.2.matchBits ≠ 0#128 ∧ it.state.scanOffset < r.2.state.scanOffset := by
  have hoffset : it.state.scanOffset ≤ it.state.haystack.length :=
    hvalid.haystack_eq ▸ hvalid.offset_le
  have hplan : it.finder.search.scanOps.BatchContract it.finder.search.kernelStorage p :=
    hvalid.finder_eq ▸ hbatch
  simp only [refill, returns_ite, returns_bind, returns_pure]
  refine ⟨fun hend => ⟨hvalid, trivial, pending_exhausted hzero hend⟩, fun hmore => ?_⟩
  apply returns_mono (SearchPlan.nextMatchBatch_spec hplan hoffset)
  intro r hr
  obtain ⟨hvalid', hsame⟩ := batch_pending hvalid hzero hr
  refine ⟨hvalid', hsame, ?_⟩
  by_cases hbits : r.1 = 0#128
  · rw [if_neg (not_not.mpr hbits), ← hsame]
    apply pending_exhausted hbits
    rw [hr.haystack_eq]
    exact hr.exhausted hbits
  · rw [if_pos hbits]
    exact ⟨hbits, hr.advances.resolve_right hmore⟩

theorem next_spec : Returns it.next fun r =>
    Valid finder haystack p r.2 ∧ r.1 = (it.pending p).head? ∧
      r.2.pending p = (it.pending p).tail := by
  simp only [next, returns_bind, returns_ite, returns_pure]
  constructor
  · intro hzero
    apply returns_mono (refill_spec hbatch hvalid hzero)
    intro r h
    obtain ⟨filled, it'⟩ := r
    obtain ⟨hvalid', hsame, hfilled⟩ := h
    cases filled with
    | none =>
      exact (returns_pure _ _).mpr ⟨hvalid', by rw [hfilled]; rfl, by rw [hsame, hfilled]; rfl⟩
    | some u =>
      simp only [returns_bind, returns_pure]
      apply returns_mono (takeLowest_spec hvalid' hfilled.1)
      intro r h
      obtain ⟨hrest, hcons⟩ := h
      rw [← hsame, hcons]
      exact ⟨hrest, rfl, rfl⟩
  · intro hne
    apply returns_mono (takeLowest_spec hvalid hne)
    intro r h
    obtain ⟨hrest, hcons⟩ := h
    rw [hcons]
    exact ⟨hrest, rfl, rfl⟩

omit hbatch in
/-- Discarding a batch drops its matches from those to come. -/
theorem discard_spec : Valid finder haystack p { it with matchBits := 0 } ∧
    pending p { it with matchBits := 0 } = (it.pending p).drop (countOnes it.matchBits) := by
  have hheld : ((setBits it.matchBits).map (it.state.matchBase + ·)).length =
      countOnes it.matchBits := by rw [List.length_map, countOnes_eq_length]
  constructor
  · obtain ⟨hfinder, hhaystack, hbase, hoffset, hspan, -⟩ := hvalid
    exact ⟨hfinder, hhaystack, hbase, hoffset, hspan, by simp⟩
  · rw [pending_of_zero rfl, pending, List.drop_left' hheld]

/-- Whole batches are skipped, and their matches counted off. -/
theorem skipBatches_spec (fuel n : ℕ) (hfuel : haystack.length < it.state.scanOffset + fuel) :
    Returns (skipBatches fuel n it) (Flow.Sat
      (fun r => Valid finder haystack p r.2 ∧ r.1 = none ∧ r.2.pending p = [] ∧
        (it.pending p).length ≤ n)
      fun s => Valid finder haystack p s.2 ∧ s.1 < countOnes s.2.matchBits ∧
        (s.2.pending p).drop s.1 = (it.pending p).drop n) := by
  induction fuel generalizing n it with
  | zero =>
    have := hvalid.offset_le
    omega
  | succ fuel ih =>
    obtain ⟨hempty, hrest⟩ := discard_spec hvalid
    simp only [skipBatches, returns_bind, returns_ite, returns_pure, flow_sat_next, Exec.returns_sub]
    refine ⟨fun hstop => ⟨hvalid, hstop, trivial⟩, fun hall => ⟨by omega, ?_⟩⟩
    apply returns_mono (refill_spec hbatch hempty rfl)
    intro r h
    obtain ⟨filled, it'⟩ := r
    obtain ⟨hvalid', hsame, hfilled⟩ := h
    cases filled with
    | none =>
      refine (returns_pure _ _).mpr ⟨hvalid', rfl, hsame.trans hfilled, ?_⟩
      have := List.drop_eq_nil_iff.mp (hrest.symm.trans hfilled)
      omega
    | some u =>
      have hvalid' : Valid finder haystack p it' := hvalid'
      have hmoved : it.state.scanOffset < it'.state.scanOffset := hfilled.2
      have h := ih hvalid' (n - countOnes it.matchBits) (by omega)
      have hsame : it'.pending p = (it.pending p).drop (countOnes it.matchBits) := hsame.trans hrest
      rw [hsame, List.drop_drop, Nat.add_sub_cancel' (by omega)] at h
      refine returns_mono h fun f hf => flow_sat_mono hf ?_ fun _ => id
      intro r hd
      obtain ⟨hvalid'', hnone, hnil, hlen⟩ := hd
      rw [List.length_drop] at hlen
      exact ⟨hvalid'', hnone, hnil, by omega⟩

omit hbatch in
/-- The loop of `nth` over the matches of the batch that come before the one asked for. -/
theorem dropHeld_spec {ρ : Type} {m : ℕ} (hheld : m < countOnes it.matchBits) (P : ρ → Prop) :
    Returns (forEach (fun _ (it : Iter) => do
        let it ← it.dropLowest
        return Flow.next it) (List.range m) it)
      (Flow.Sat P fun it' => Valid finder haystack p it' ∧ it'.matchBits ≠ 0#128 ∧
        it'.pending p = (it.pending p).drop m) := by
  refine returns_flow_mono (returns_forEach (fun i (it' : Iter) => Valid finder haystack p it' ∧
    m - i < countOnes it'.matchBits ∧ it'.pending p = (it.pending p).drop i) P
    ⟨hvalid, hheld, rfl⟩ ?_) ?_
  · intro i hi it' h
    obtain ⟨hvalid', hheld', hpending⟩ := h
    rw [List.length_range] at hi
    rw [returns_bind]
    apply returns_mono (dropLowest_spec hvalid' (ne_zero_of_lt_countOnes hheld'))
    intro it'' h
    obtain ⟨hvalid'', -, hbits, hcons⟩ := h
    have hcount := congrArg List.length hbits
    rw [List.length_cons, ← countOnes_eq_length, ← countOnes_eq_length] at hcount
    refine (returns_pure _ _).mpr ⟨hvalid'', by omega, ?_⟩
    rw [← List.drop_drop, ← hpending, hcons]
    rfl
  · intro it' h
    obtain ⟨hvalid', hheld', hpending⟩ := h
    rw [List.length_range] at hheld' hpending
    exact ⟨hvalid', ne_zero_of_lt_countOnes hheld', hpending⟩

theorem nth_spec (n : ℕ) : Returns (it.nth n) fun r =>
    Valid finder haystack p r.2 ∧ r.1 = (it.pending p)[n]? ∧
      r.2.pending p = (it.pending p).drop (n + 1) := by
  have hfuel : haystack.length < it.state.scanOffset + (it.state.haystack.length + 1) := by
    rw [hvalid.haystack_eq]
    omega
  rw [nth, returns_andThen]
  apply returns_mono (skipBatches_spec hbatch hvalid _ n hfuel)
  intro flow hflow
  cases flow with
  | ret r =>
    obtain ⟨hvalid', hnone, hnil, hle⟩ := hflow
    refine ⟨hvalid', ?_, ?_⟩
    · rw [hnone, List.getElem?_eq_none hle]
    · rw [hnil, List.drop_eq_nil_of_le (hle.trans (Nat.le_succ n))]
  | next s =>
    obtain ⟨m, it'⟩ := s
    obtain ⟨hvalid', hheld, hdrop⟩ := hflow
    simp only [flow_sat_next, returns_andThen]
    apply returns_flow_mono (dropHeld_spec hvalid' hheld _)
    intro it'' h
    obtain ⟨hvalid'', hne, hpending⟩ := h
    simp only [returns_bind, returns_pure]
    apply returns_mono (takeLowest_spec hvalid'' hne)
    intro r h
    obtain ⟨hrest, hcons⟩ := h
    rw [hpending, hdrop] at hcons
    refine ⟨hrest, ?_, ?_⟩
    · rw [← List.head?_drop, hcons, List.head?_cons]
    · rw [← List.drop_drop, hcons]
      rfl

end Scanning

section Collect

variable {p : U8 → Bool} {finder : Searcher} {haystack : List U8} {it : Iter}

/-- `next` takes the matches one by one from those still to come. -/
theorem next_streams (hbatch : finder.search.scanOps.BatchContract finder.search.kernelStorage p) :
    Streams next fun it l => Valid finder haystack p it ∧ it.pending p = l := by
  intro it l _ hs
  obtain ⟨hvalid, rfl⟩ := hs
  apply returns_mono (next_spec hbatch hvalid)
  intro r h
  obtain ⟨hvalid', hitem, hrest⟩ := h
  exact ⟨hitem, hvalid', hrest⟩

theorem collectFuel_eq_drain (fuel : ℕ) : collectFuel fuel it = drain next fuel it := by
  induction fuel generalizing it with
  | zero => rfl
  | succ fuel ih =>
    simp only [collectFuel, drain, ih]
    congr 1
    funext r
    cases r.1 <;> rfl

theorem collect_spec (hbatch : finder.search.scanOps.BatchContract finder.search.kernelStorage p)
    (hvalid : Valid finder haystack p it) : Returns it.collect (· = it.pending p) := by
  have hlen : (it.pending p).length < it.state.haystack.length + 1 :=
    Nat.lt_succ_of_le (hvalid.haystack_eq ▸ hvalid.length_le)
  rw [collect, collectFuel_eq_drain]
  exact (next_streams hbatch).drain hlen ⟨hvalid, rfl⟩

end Collect

section Refinement

variable {p : U8 → Bool} {finder : Searcher}

/-- Every operation is the one on the stream of matches to come. -/
theorem perform_stream (hbatch : finder.search.scanOps.BatchContract finder.search.kernelStorage p)
    (haystack : List U8) : Simulates perform (fun l op => op.onStream l)
      fun it l => Valid finder haystack p it ∧ it.pending p = l := by
  intro it t op hs
  obtain ⟨hvalid, rfl⟩ := hs
  cases op with
  | next =>
    simp only [perform, returns_bind, returns_pure]
    apply returns_mono (next_spec hbatch hvalid)
    intro r h
    obtain ⟨hvalid', hitem, hrest⟩ := h
    exact ⟨congrArg some hitem, hvalid', hrest⟩
  | nth n =>
    simp only [perform, returns_bind, returns_pure]
    apply returns_mono (nth_spec hbatch hvalid n)
    intro r h
    obtain ⟨hvalid', hitem, hrest⟩ := h
    exact ⟨congrArg some hitem, hvalid', hrest⟩
  | advanceTo idx =>
    simp only [perform, returns_bind, returns_pure]
    exact returns_mono (advanceTo_spec hvalid idx) fun it' h => ⟨rfl, h⟩

theorem runAll_stream (hbatch : finder.search.scanOps.BatchContract finder.search.kernelStorage p)
    (haystack : List U8) (ops : List Operation) :
    Returns (runAll perform ops (finder.iter haystack)) fun r =>
      r.1 = (specAll (fun l op => op.onStream l) ops (haystack.findIdxs p)).1 ∧
        Valid finder haystack p r.2 ∧
        r.2.pending p = (specAll (fun l op => op.onStream l) ops (haystack.findIdxs p)).2 :=
  (perform_stream hbatch haystack).runAll ops ⟨valid_iter finder haystack, pending_iter finder haystack⟩

/-- Over any operations that keep the contract, the iterator answers as the scalar cursor. No
match is invented, repeated or out of order, and `None` is final. -/
theorem run_agrees_with_cursor
    (hbatch : finder.search.scanOps.BatchContract finder.search.kernelStorage p)
    (haystack : List U8) (ops : List Operation) :
    ∃ answers it, runAll perform ops (finder.iter haystack) = .ok (answers, it) ∧
      answers = (specAll (fun c op => op.onCursor p haystack c) ops 0).1 ∧
      (items answers).Sublist (haystack.findIdxs p) ∧
      answers.Pairwise fun earlier later => earlier = some none → later.join = none := by
  obtain ⟨⟨answers, it⟩, hrun, hanswers, -, -⟩ := runAll_stream hbatch haystack ops
  have hanswers : answers =
    (specAll (fun l op => Operation.onStream l op) ops (haystack.findIdxs p)).1 := hanswers
  have hcursor := specAll_eq (R := fun l c => l = fromPos (haystack.findIdxs p) c)
    (fun l c op hl => by
      obtain ⟨hanswer, hrest⟩ := onCursor_spec p haystack c op
      rw [hl, hanswer, hrest]
      exact ⟨rfl, rfl⟩) ops (fromPos_zero (haystack.findIdxs p)).symm
  refine ⟨answers, it, hrun, hanswers.trans hcursor.1, ?_, ?_⟩
  · rw [hanswers]
    exact items_sublist ops _
  · rw [hanswers]
    exact none_is_final ops _

theorem run_agrees_with_cursor_swar :
    let _ : Target := ⟨.x86, .little⟩
    ∃ it, runAll perform [.next, .advanceTo 2, .nth 1, .advanceTo 0, .next]
      (Searcher.iter ⟨.swar (Swar.NotByte.new 0x62#8)⟩
        [0x61#8, 0x62#8, 0x62#8, 0x63#8, 0x62#8, 0x64#8]) =
      .ok ([some (some 0), none, some (some 5), none, some none], it) := by
  intro _
  obtain ⟨answers, it, hrun, hanswers, -, -⟩ := run_agrees_with_cursor
    (SearchPlan.swar_upholds (Swar.notByte_lawful 0x62#8)).nextMatchBatch
    [0x61#8, 0x62#8, 0x62#8, 0x63#8, 0x62#8, 0x64#8]
    [.next, .advanceTo 2, .nth 1, .advanceTo 0, .next]
  refine ⟨it, hrun.trans ?_⟩
  rw [hanswers]
  rfl

/-- After any operations the batch is within bounds and holds matches only, and no further
operation meets a fault: an index out of bounds, a false promise, an underflow or a wide shift. -/
theorem reachable_is_safe (hplan : finder.search.Upholds p) (haystack : List U8)
    (ops : List Operation) :
    ∃ answers it, runAll perform ops (finder.iter haystack) = .ok (answers, it) ∧
      it.state.haystack = haystack ∧
      it.state.matchBase ≤ it.state.scanOffset ∧
      it.state.scanOffset ≤ haystack.length ∧
      it.state.scanOffset - it.state.matchBase ≤ 128 ∧
      (∀ k, it.matchBits.getLsbD k = true → it.state.matchBase + k < it.state.scanOffset ∧
        ∃ byte, haystack[it.state.matchBase + k]? = some byte ∧ p byte = true) ∧
      (∃ r, it.next = .ok r) ∧ (∀ n, ∃ r, it.nth n = .ok r) ∧
      (∀ idx, ∃ r, it.advanceTo idx = .ok r) ∧ (∃ r, it.count = .ok r) ∧
      ∃ r, it.sizeHint = .ok r := by
  obtain ⟨⟨answers, it⟩, hrun, -, hvalid, -⟩ := runAll_stream hplan.nextMatchBatch haystack ops
  obtain ⟨next, hnext, -⟩ := next_spec hplan.nextMatchBatch hvalid
  obtain ⟨count, hcount, -⟩ := count_spec hvalid hplan.countAll
  obtain ⟨hint, hhint, -⟩ := sizeHint_spec hvalid
  refine ⟨answers, it, hrun, hvalid.haystack_eq, hvalid.base_le, hvalid.offset_le, hvalid.span_le,
    hvalid.bits, ⟨next, hnext⟩, fun n => ?_, fun idx => ?_, ⟨count, hcount⟩, ⟨hint, hhint⟩⟩
  · obtain ⟨r, hr, -⟩ := nth_spec hplan.nextMatchBatch hvalid n
    exact ⟨r, hr⟩
  · obtain ⟨r, hr, -⟩ := advanceTo_spec hvalid idx
    exact ⟨r, hr⟩

theorem reachable_is_safe_vector :
    let _ : Target := ⟨.aarch64, .little⟩
    ∃ answers it, runAll perform [.advanceTo 1, .next, .nth 7]
      (Searcher.iter ⟨.vector (Level.ofFlags false false false false true .w16)
        (Simd.AnyOf.new #v[0x61#8, 0x62#8])⟩ [0x61#8, 0x63#8, 0x62#8]) = .ok (answers, it) ∧
      it.state.matchBase ≤ it.state.scanOffset ∧ ∃ r, it.next = .ok r := by
  intro _
  obtain ⟨answers, it, hrun, -, hbase, -, -, -, hnext, -⟩ := reachable_is_safe
    (SearchPlan.vector_upholds (Simd.anyOf_lawful
      (Level.ofFlags false false false false true .w16) #v[0x61#8, 0x62#8]))
    [0x61#8, 0x63#8, 0x62#8] [.advanceTo 1, .next, .nth 7]
  exact ⟨answers, it, hrun, hbase, hnext⟩

/-- After any operations, `count` and `size_hint` tell the items that `next` would still yield: the
held bits and the suffix not yet scanned make them up. A slice's length is a `usize`. -/
theorem count_is_remaining
    (hbatch : finder.search.scanOps.BatchContract finder.search.kernelStorage p)
    (hcount : finder.search.scanOps.CountContract finder.search.kernelStorage p)
    {haystack : List U8} (husize : haystack.length < 2 ^ usizeBits) (ops : List Operation) :
    ∃ answers it, runAll perform ops (finder.iter haystack) = .ok (answers, it) ∧
      ∃ items, it.collect = .ok items ∧ it.count = .ok items.length ∧
        ∃ lo hi, it.sizeHint = .ok (lo, some hi) ∧
          lo ≤ items.length ∧ items.length ≤ hi ∧ hi ≤ haystack.length := by
  obtain ⟨⟨answers, it⟩, hrun, -, hvalid, -⟩ := runAll_stream hbatch haystack ops
  obtain ⟨items, hcollect, hitems⟩ := collect_spec hbatch hvalid
  obtain ⟨total, htotal, hlen⟩ := count_spec hvalid hcount
  obtain ⟨⟨lo, upper⟩, hhint, hlo, hupper⟩ := sizeHint_spec hvalid
  obtain ⟨hi, hsome, hle, hfit⟩ := hupper husize
  have hsome : upper = some hi := hsome
  rw [← hitems] at hlo hle hlen
  rw [hlen] at htotal
  rw [hsome] at hhint
  exact ⟨answers, it, hrun, items, hcollect, htotal, lo, hi, hhint, hlo, hle, hfit⟩

theorem count_is_remaining_swar :
    let _ : Target := ⟨.x86, .little⟩
    ∃ answers it, runAll perform [.next, .advanceTo 3]
        (Searcher.iter ⟨.swar (Swar.NotByte.new 0x62#8)⟩
          [0x61#8, 0x63#8, 0x64#8, 0x62#8, 0x61#8]) = .ok (answers, it) ∧
      ∃ items, it.collect = .ok items ∧ it.count = .ok items.length := by
  intro _
  have hplan := SearchPlan.swar_upholds (Swar.notByte_lawful 0x62#8)
  obtain ⟨answers, it, hrun, items, hcollect, hcount, -⟩ := count_is_remaining
    hplan.nextMatchBatch hplan.countAll
    (show [0x61#8, 0x63#8, 0x64#8, 0x62#8, 0x61#8].length < 2 ^ usizeBits by decide)
    [.next, .advanceTo 3]
  exact ⟨answers, it, hrun, items, hcollect, hcount⟩

end Refinement

end Iter

end MemchrN
