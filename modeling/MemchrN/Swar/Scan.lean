import MemchrN.Search.Staging
import MemchrN.Search.Storage

namespace MemchrN.Swar

section Definitions

variable {K : Type} [Kernel K] (kernel : K)

/-- `kernel.matches(u64::from_le_bytes(word))`. -/
def matchesAt (word : Vector U8 wordBytes) : U64 := Kernel.matchesWord kernel (fromLeBytes 64 word)

/-- Copies of both ends of a haystack, side by side in a zeroed word. -/
def stage (N : ℕ) (haystack : List U8) : Exec (Vector U8 wordBytes) := do
  Exec.debugAssert (decide (N ≤ haystack.length))
  let buf := Vector.replicate wordBytes 0
  let front ← Exec.sliceTo haystack N
  let buf ← Exec.copyFromSlice buf 0 N front
  let backStart ← Exec.sub haystack.length N
  let back ← Exec.sliceFrom haystack backStart
  Exec.copyFromSlice buf N (2 * N) back

def stagedLen (len : ℕ) : ℕ := if 4 ≤ len then 4 else if 2 ≤ len then 2 else 1

/-- Match bits of a haystack shorter than a word. -/
def shortTailBits (haystack : List U8) : Exec U64 := do
  let len := haystack.length
  Exec.debugAssert (!haystack.isEmpty && decide (len < wordBytes))
  let buf ← stage (stagedLen len) haystack
  let bits := movemask (matchesAt kernel buf)
  slideEnds bits (stagedLen len) len

/-- Match bits of the final partial word, from the last full word when there is one. -/
def tailBits (haystack tail : List U8) : Exec U64 := do
  Exec.debugAssert (!tail.isEmpty && decide (tail.length < wordBytes))
  match lastChunk wordBytes haystack with
  | some word =>
    let matched := matchesAt kernel word
    let shift ← Exec.sub wordBytes tail.length
    Exec.shr (movemask matched) shift
  | none => shortTailBits kernel tail

def batchPair (state : IterState) (pair : Vector (Vector U8 wordBytes) 2) (offset : ℕ) :
    Exec (Flow (MatchedBitset × IterState) ℕ) := do
  let firstMatch := matchesAt kernel (pairFirst pair)
  let secondMatch := matchesAt kernel (pairSecond pair)
  if firstMatch ||| secondMatch ≠ 0#64 then
    let bits := movemask firstMatch ||| movemask secondMatch <<< wordBytes
    return .ret (bits.setWidth matchedBits,
      { state with matchBase := offset, scanOffset := offset + 2 * wordBytes })
  return .next (offset + 2 * wordBytes)

def batchWord (state : IterState) (word : Vector U8 wordBytes) (offset : ℕ) :
    Exec (Flow (MatchedBitset × IterState) ℕ) := do
  let marks := matchesAt kernel word
  if marks ≠ 0#64 then
    return .ret ((movemask marks).setWidth matchedBits,
      { state with matchBase := offset, scanOffset := offset + wordBytes })
  return .next (offset + wordBytes)

def batchTail (state : IterState) (tail : List U8) : Exec (MatchedBitset × IterState) := do
  let matchBase ← Exec.sub state.haystack.length tail.length
  let state := { state with matchBase := matchBase, scanOffset := state.haystack.length }
  if tail.isEmpty then return (0, state)
  let bits ← tailBits kernel state.haystack tail
  return (bits.setWidth matchedBits, state)

/-- Pairs of words, an odd word, then the tail. -/
def nextMatchBatch (state : IterState) : Exec (MatchedBitset × IterState) := do
  let unscanned ← Exec.getUncheckedFrom state.haystack state.scanOffset
  let (words, tail) := asChunks wordBytes unscanned
  let (pairs, words) := asChunks 2 words
  andThen (forEach (batchPair kernel state) pairs state.scanOffset) fun offset =>
    andThen (forEach (batchWord kernel state) words offset) fun _ =>
      batchTail kernel state tail

end Definitions

section Words

/-- The word whose byte `i` is marked when bit `i` of `m` is set. -/
def spread (m : U8) : U64 :=
  fromLeBytes 64 (Vector.ofFn fun i : Fin wordBytes => if m.getLsbD i then 0x80#8 else 0#8)

theorem movemask_spread : ∀ m : U8, movemask (spread m) = m.setWidth 64 := by decide +kernel

variable {marks : U64} {lanes : Vector Bool wordBytes}

/-- The multiplication gathers the eight marks in order. -/
theorem bitSet_movemask (h : ∀ i (hi : i < wordBytes),
    byteAt marks i = if lanes[i] then 0x80#8 else 0#8) :
    bitSet (movemask marks) = trueLanes lanes := by
  have hbit (i : ℕ) : (toBitmask lanes).getLsbD i = true ↔ i ∈ trueLanes lanes :=
    Set.ext_iff.mp (bitSet_toBitmask (by decide)) i
  have hspread : marks = spread ((toBitmask lanes).setWidth 8) := by
    apply byteAt_ext (n := 8) rfl
    intro i hi
    rw [h i hi, spread, byteAt_fromLeBytes _ (by decide) hi, Vector.getElem_ofFn]
    congr 1
    rw [BitVec.getLsbD_setWidth, Bool.and_eq_true, hbit, mem_trueLanes]
    simp [hi]
  rw [hspread, movemask_spread, bitSet_setWidth fun k hk => (lt_of_mem_bitSet hk).trans (by decide),
    bitSet_setWidth fun k hk => lt_of_mem_trueLanes ((hbit k).mp hk), bitSet_toBitmask (by decide)]

end Words

theorem stagedLen_le {len : ℕ} (h0 : 0 < len) : stagedLen len ≤ len := by
  rw [stagedLen]
  split_ifs <;> omega

theorem two_stagedLen {len : ℕ} (h8 : len < 8) :
    len ≤ 2 * stagedLen len ∧ 2 * stagedLen len ≤ 8 := by
  rw [stagedLen]
  split_ifs <;> omega

/-- Staging copies the two ends of a haystack that is long enough for one of them. -/
theorem stage_spec {N : ℕ} {xs : List U8} (hN : N ≤ xs.length) (h8 : 2 * N ≤ 8) :
    Returns (stage N xs) fun buf => ∀ i < N,
      buf[i]? = xs[i]? ∧ buf[N + i]? = xs[xs.length - N + i]? := by
  simp only [stage, returns_bind, Exec.returns_debugAssert, Exec.returns_sliceTo, Exec.returns_sub,
    Exec.returns_sliceFrom, Exec.returns_copyFromSlice, List.length_take, List.length_drop,
    decide_eq_true_eq]
  refine ⟨hN, hN, ⟨Nat.zero_le _, show N ≤ 8 by omega, by omega⟩, hN, by omega, ⟨by omega, h8, by omega⟩, ?_⟩
  intro i hi
  have hlt : i < 8 := by omega
  have hlt' : N + i < 8 := by omega
  have hback : xs.length - N + i < xs.length := by omega
  constructor
  · simp [hlt, Nat.not_le.mpr hi, List.getElem?_take_of_lt hi, show i < xs.length by omega]
  · simp [show N + i < wordBytes from hlt', List.getElem?_drop, hback]

variable {K : Type} [Kernel K] {kernel : K} (hlaw : Lawful kernel)

include hlaw

theorem byteAt_matchesAt (word : Vector U8 wordBytes) (i : ℕ) (hi : i < wordBytes) :
    byteAt (matchesAt kernel word) i =
      if (word.map (Kernel.matchesByte kernel))[i] then 0x80#8 else 0#8 := by
  rw [matchesAt, hlaw _ i hi, byteAt_fromLeBytes _ (by decide) hi, Vector.getElem_map]

theorem marksLanes_matchesAt (word : Vector U8 wordBytes) : MarksLanes 8 (matchesAt kernel word)
    (trueLanes (word.map (Kernel.matchesByte kernel))) := by
  apply marksLanes_bytes (n := 8) rfl (fun i hi => lt_of_mem_trueLanes hi)
  intro i hi
  rw [byteAt_matchesAt hlaw word i hi, mem_trueLanes]
  cases h : (word.map (Kernel.matchesByte kernel))[i] <;> simp [h, hi]

section Word

variable {xs : List U8} {off : ℕ} {word : Vector U8 wordBytes} (hword : ChunkAt xs off word)

include hword

/-- The marks of a word of the haystack, lane by lane and gathered, are its matches. -/
theorem marksLanes_window : MarksLanes 8 (matchesAt kernel word)
    (window (matchSet (Kernel.matchesByte kernel) xs) off wordBytes) := by
  rw [window_matchSet hword]
  exact marksLanes_matchesAt hlaw word

theorem bitSet_movemask_window : bitSet (movemask (matchesAt kernel word)) =
    window (matchSet (Kernel.matchesByte kernel) xs) off wordBytes := by
  rw [window_matchSet hword]
  exact bitSet_movemask (byteAt_matchesAt hlaw word)

end Word

theorem shortTailBits_spec {xs : List U8} (h0 : 0 < xs.length) (h8 : xs.length < wordBytes) :
    Returns (shortTailBits kernel xs) fun bits =>
      bitSet bits = matchSet (Kernel.matchesByte kernel) xs := by
  have hn := stagedLen_le h0
  obtain ⟨hcover, htwo⟩ := two_stagedLen h8
  simp only [shortTailBits, returns_bind, Exec.returns_debugAssert]
  refine ⟨by simp [h8, List.ne_nil_of_length_pos h0], ?_⟩
  apply returns_mono (stage_spec hn htwo)
  intro buf hbuf
  have hbits (j : ℕ) : (movemask (matchesAt kernel buf)).getLsbD j = true ↔
      ∃ b, buf[j]? = some b ∧ Kernel.matchesByte kernel b = true := by
    have h := Set.ext_iff.mp (bitSet_movemask (byteAt_matchesAt hlaw buf)) j
    rw [mem_bitSet] at h
    rw [h, mem_trueLanes_map]
  refine slideEnds_spec (clearFrom_length _ _) hn hcover (by omega) (fun k hk => ?_) fun k hk => ?_
  · rw [hbits, (hbuf k hk).1]
    rfl
  · rw [hbits, (hbuf k hk).2]
    rfl

theorem tailBits_spec {xs tail : List U8} (hsuffix : tail <:+ xs) (h0 : 0 < tail.length)
    (h8 : tail.length < 8) :
    Returns (tailBits kernel xs tail) fun bits =>
      bitSet bits = matchSet (Kernel.matchesByte kernel) tail := by
  have hle := hsuffix.length_le
  simp only [tailBits, returns_bind, Exec.returns_debugAssert]
  refine ⟨by simp [h8, List.ne_nil_of_length_pos h0], ?_⟩
  rcases Nat.lt_or_ge xs.length wordBytes with hshort | hlong
  · rw [lastChunk_of_lt hshort]
    exact shortTailBits_spec hlaw h0 h8
  · obtain ⟨word, hlast, hword⟩ := lastChunk_of_le hlong
    simp only [hlast, returns_bind, Exec.returns_sub, Exec.returns_shr]
    refine ⟨h8.le, (Nat.sub_le _ _).trans_lt (by decide), ?_⟩
    rw [matchSet_suffix _ hsuffix]
    exact bitSet_shiftRight_window (bitSet_movemask_window hlaw hword) h8.le hlong

theorem tails_upheld : TailContract (Kernel.matchesByte kernel) wordBytes (tailBits kernel)
    (shortTailBits kernel) := .of_specs (tailBits_spec hlaw) (shortTailBits_spec hlaw)

theorem matchesAt_eq_zero {xs : List U8} {off : ℕ} {word : Vector U8 wordBytes}
    (hword : ChunkAt xs off word) : matchesAt kernel word = 0#64 ↔
      window (matchSet (Kernel.matchesByte kernel) xs) off wordBytes = ∅ :=
  (marksLanes_window hlaw hword).eq_empty_iff.symm

section Batches

variable {state : IterState} {offset : ℕ} (hge : state.scanOffset ≤ offset)
  (hclear : state.Passed (Kernel.matchesByte kernel) offset)

include hge hclear

/-- One turn of the pair loop: a batch of sixteen bytes, or sixteen bytes without a match. -/
theorem batchPair_spec {pair : Vector (Vector U8 wordBytes) 2}
    (hfirst : ChunkAt state.haystack offset (pairFirst pair))
    (hsecond : ChunkAt state.haystack (offset + wordBytes) (pairSecond pair)) :
    Returns (batchPair kernel state pair offset) (Flow.Sat
      (BatchSpec (Kernel.matchesByte kernel) state)
      fun offset' => offset' = offset + 2 * wordBytes ∧
        state.Passed (Kernel.matchesByte kernel) (offset + 2 * wordBytes)) := by
  have hbits := bitSet_pair (bitSet_movemask_window hlaw hfirst)
    (bitSet_movemask_window hlaw hsecond) (by decide)
  have hzero : matchesAt kernel (pairFirst pair) ||| matchesAt kernel (pairSecond pair) = 0#64 ↔
      window (matchSet (Kernel.matchesByte kernel) state.haystack) offset
        (wordBytes + wordBytes) = ∅ := by
    rw [BitVec.or_eq_zero_iff, matchesAt_eq_zero hlaw hfirst, matchesAt_eq_zero hlaw hsecond,
      window_add_eq_empty]
  have hfits : offset + 8 + 8 ≤ state.haystack.length := hsecond.fits
  simp only [batchPair, returns_ite, returns_pure, flow_sat_ret, flow_sat_next, true_and]
  constructor
  · intro hhit
    exact .of_hit hge hclear (show offset + 16 ≤ _ by omega) (by decide)
      (bitSet_widen hbits) (hzero.not.mp hhit)
  · intro hmiss
    exact clearBelow_ahead_of_window hclear hge (hzero.mp (not_not.mp hmiss))

theorem batchWord_spec {word : Vector U8 wordBytes} (hword : ChunkAt state.haystack offset word) :
    Returns (batchWord kernel state word offset) (Flow.Sat
      (BatchSpec (Kernel.matchesByte kernel) state)
      fun offset' => offset' = offset + wordBytes ∧
        state.Passed (Kernel.matchesByte kernel) (offset + wordBytes)) := by
  have hzero := matchesAt_eq_zero hlaw hword
  simp only [batchWord, returns_ite, returns_pure, flow_sat_ret, flow_sat_next, true_and]
  constructor
  · intro hhit
    exact .of_hit hge hclear hword.fits (by decide)
      (bitSet_widen (bitSet_movemask_window hlaw hword)) (hzero.not.mp hhit)
  · intro hmiss
    exact clearBelow_ahead_of_window hclear hge (hzero.mp (not_not.mp hmiss))

end Batches

theorem batchTail_spec {state : IterState} {tail : List U8} (hsuffix : tail <:+ state.haystack)
    (hshort : tail.length < 8) (hle : state.scanOffset + tail.length ≤ state.haystack.length)
    (hclear : state.Passed (Kernel.matchesByte kernel) (state.haystack.length - tail.length)) :
    Returns (batchTail kernel state tail) (BatchSpec (Kernel.matchesByte kernel) state) :=
  returns_batchTail (tails_upheld hlaw) hsuffix hshort (by decide) hle hclear

theorem nextMatchBatch_spec (state : IterState)
    (hstate : state.scanOffset ≤ state.haystack.length) :
    Returns (nextMatchBatch kernel state) (BatchSpec (Kernel.matchesByte kernel) state) := by
  obtain ⟨htiles, hsuffix, hshort, hlen⟩ := asChunks_drop hstate (show 0 < wordBytes by decide)
  simp only [nextMatchBatch, returns_bind, Exec.returns_getUncheckedFrom, returns_andThen]
  refine ⟨hstate, ?_⟩
  apply returns_flow_mono (returns_scan_pairs (state.Passed _) _ htiles clearBelow_ahead
    fun offset pair hge hfirst hsecond hclear => batchPair_spec hlaw hge hclear hfirst hsecond)
  intro offset h
  obtain ⟨rfl, hclear⟩ := h
  apply returns_flow_mono (returns_scan_tiles (state.Passed _) _ (tiles_rest htiles) hclear
    fun offset word hge hword hclear => batchWord_spec hlaw (by omega) hclear hword)
  intro offset h
  obtain ⟨rfl, hclear⟩ := h
  rw [pairs_rest_end] at hclear
  exact batchTail_spec hlaw hsuffix hshort (by omega) (hclear.mono (by omega))

/-- The documented contract of `next_match_batch`, from any offset into any haystack. -/
theorem swarBatch_upholds_contract (state : IterState)
    (hstate : state.scanOffset ≤ state.haystack.length) :
    ∃ bits state', nextMatchBatch kernel state = .ok (bits, state') ∧
      state'.haystack = state.haystack ∧
      state.scanOffset ≤ state'.matchBase ∧ state'.matchBase ≤ state'.scanOffset ∧
      state'.scanOffset ≤ state.haystack.length ∧
      state'.scanOffset - state'.matchBase ≤ 128 ∧
      (state.scanOffset < state'.scanOffset ∨ state.scanOffset = state.haystack.length) ∧
      (∀ o byte, state.haystack[o]? = some byte → Kernel.matchesByte kernel byte = true →
        state.scanOffset ≤ o → state'.matchBase ≤ o) ∧
      (∀ k, bits.getLsbD k = true ↔ state'.matchBase + k < state'.scanOffset ∧
        ∃ byte, state.haystack[state'.matchBase + k]? = some byte ∧
          Kernel.matchesByte kernel byte = true) ∧
      (bits = 0 → state'.scanOffset = state.haystack.length) := by
  obtain ⟨⟨bits, state'⟩, hrun, h⟩ := nextMatchBatch_spec hlaw state hstate
  exact ⟨bits, state', hrun, h.haystack_eq, h.base_ge, h.base_le, h.offset_le, h.span_le, h.advances,
    fun o byte hbyte hmatch => h.skips_none o ⟨byte, hbyte, hmatch⟩, h.bits_iff, h.exhausted⟩

omit hlaw in
/-- Five bytes left of a word already begun: the tail re-reads the scanned ones. -/
theorem swarBatch_upholds_contract_tail : ∃ bits state',
    nextMatchBatch (AnyOf.new #v[0x61#8])
      ⟨[0x61#8, 0#8, 0#8, 0#8, 0#8, 0x61#8, 0#8, 0#8], 3, 0⟩ = .ok (bits, state') ∧
    3 < state'.scanOffset ∧ state'.matchBase ≤ 5 := by
  obtain ⟨bits, state', hrun, -, -, -, -, -, hadvance, hskip, -, -⟩ :=
    swarBatch_upholds_contract (anyOf_lawful #v[0x61#8])
      ⟨[0x61#8, 0#8, 0#8, 0#8, 0#8, 0x61#8, 0#8, 0#8], 3, 0⟩ (by decide)
  exact ⟨bits, state', hrun, hadvance.resolve_right (by decide),
    hskip 5 0x61#8 rfl (by simp [anyOf_matchesByte]) (by decide)⟩

end MemchrN.Swar
