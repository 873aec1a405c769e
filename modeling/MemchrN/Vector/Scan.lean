import MemchrN.Search.Staging
import MemchrN.Search.Storage
import MemchrN.Vector.Lanes

namespace MemchrN.Simd

abbrev chunkBytes : ℕ := 64

abbrev blockBytes : ℕ := 16

section Definitions

/-- One end of a short haystack, zero padded into a word. -/
def endWord (N : ℕ) (bytes : List U8) : Exec U64 := do
  let buf ← Exec.copyFromSlice (Vector.replicate 8 0) 0 N bytes
  return fromLeBytes 64 buf

/-- The first and last `N` bytes, packed into one word. -/
def ends (N : ℕ) (haystack : List U8) : Exec U64 := do
  Exec.debugAssert (decide (N ≤ haystack.length))
  let first ← Exec.sliceTo haystack N
  let lastStart ← Exec.sub haystack.length N
  let last ← Exec.sliceFrom haystack lastStart
  let first ← endWord N first
  let last ← endWord N last
  let last ← Exec.shl last (N * 8)
  return first ||| last

/-- Both ends of a haystack shorter than a block as two words, and the length of one end. -/
def stagedWords (haystack : List U8) : Exec (Vector U64 2 × ℕ) := do
  let len := haystack.length
  if 8 ≤ len then
    let first ← Exec.unwrap (firstChunk 8 haystack)
    let last ← Exec.unwrap (lastChunk 8 haystack)
    return (#v[fromLeBytes 64 first, fromLeBytes 64 last], 8)
  else if 4 ≤ len then
    let word ← ends 4 haystack
    return (#v[word, 0], 4)
  else if 2 ≤ len then
    let word ← ends 2 haystack
    return (#v[word, 0], 2)
  else
    let word ← ends 1 haystack
    return (#v[word, 0], 1)

variable [Target]

/-- `u64x2` to `u8x16`: the bytes in memory order. -/
def bitcastBytes (words : Vector U64 2) : Vector U8 16 :=
  (toNeBytes 8 (pairFirst words) ++ toNeBytes 8 (pairSecond words) : Vector U8 (8 + 8))

variable (level : Level) {K : Type} [Kernel K] (kernel : K)

/-- `kernel.matches(V::load(..))`. -/
def matchesAt (w : Width) (chunk : Vector U8 w.lanes) : Vector Bool w.lanes :=
  Kernel.matchesChunk kernel level w chunk

def stagedEndsBits (shortHaystack : List U8) : Exec (U64 × ℕ) := do
  let len := shortHaystack.length
  Exec.debugAssert (!shortHaystack.isEmpty && decide (len < blockBytes))
  let (words, stagedLen) ← stagedWords shortHaystack
  let words := #v[toLe (pairFirst words), toLe (pairSecond words)]
  let ends := bitcastBytes words
  return (toBitmask (matchesAt level kernel .w16 ends), stagedLen)

def shortTailBits (shortHaystack : List U8) : Exec U64 := do
  let len := shortHaystack.length
  let (bits, stagedLen) ← stagedEndsBits level kernel shortHaystack
  slideEnds bits stagedLen len

/-- Match bits of the final partial block, from the last full block when there is one. -/
def tailBits (haystack tail : List U8) : Exec U64 := do
  Exec.debugAssert (!tail.isEmpty && decide (tail.length < blockBytes))
  match lastChunk blockBytes haystack with
  | some chunk =>
    let matched := matchesAt level kernel .w16 chunk
    let shift ← Exec.sub blockBytes tail.length
    Exec.shr (toBitmask matched) shift
  | none => shortTailBits level kernel tail

def batchPair (state : IterState) (pair : Vector (Vector U8 chunkBytes) 2) (offset : ℕ) :
    Exec (Flow (MatchedBitset × IterState) ℕ) := do
  let matchedFirst := matchesAt level kernel .w64 (pairFirst pair)
  let matchedSecond := matchesAt level kernel .w64 (pairSecond pair)
  if anyTrue (maskOr matchedFirst matchedSecond) then
    let bits := (toBitmask matchedFirst).setWidth matchedBits |||
      (toBitmask matchedSecond).setWidth matchedBits <<< chunkBytes
    return .ret (bits, { state with matchBase := offset, scanOffset := offset + 2 * chunkBytes })
  return .next (offset + 2 * chunkBytes)

/-- A single chunk or block. -/
def batchVector (w : Width) (state : IterState) (chunk : Vector U8 w.lanes) (offset : ℕ) :
    Exec (Flow (MatchedBitset × IterState) ℕ) := do
  let matched := matchesAt level kernel w chunk
  if anyTrue matched then
    return .ret ((toBitmask matched).setWidth matchedBits,
      { state with matchBase := offset, scanOffset := offset + w.lanes })
  return .next (offset + w.lanes)

def batchTail (state : IterState) (tail : List U8) : Exec (MatchedBitset × IterState) := do
  let matchBase ← Exec.sub state.haystack.length tail.length
  let state := { state with matchBase := matchBase, scanOffset := state.haystack.length }
  if tail.isEmpty then return (0, state)
  let bits ← tailBits level kernel state.haystack tail
  return (bits.setWidth matchedBits, state)

/-- Pairs of chunks, an odd chunk, blocks, then the tail. -/
def nextMatchBatch (state : IterState) : Exec (MatchedBitset × IterState) := do
  let unscanned ← Exec.getUncheckedFrom state.haystack state.scanOffset
  let (chunks, tail) := asChunks chunkBytes unscanned
  let (pairs, rest) := asChunks 2 chunks
  andThen (forEach (batchPair level kernel state) pairs state.scanOffset) fun offset =>
    andThen (ifLetOne (batchVector level kernel .w64 state) rest offset) fun offset =>
      let (blocks, tail) := asChunks blockBytes tail
      andThen (forEach (batchVector level kernel .w16 state) blocks offset) fun _ =>
        batchTail level kernel state tail

end Definitions

section Staging

variable {N : ℕ} {xs : List U8}

theorem endWord_spec {bytes : List U8} (hlen : bytes.length = N) (hN : N ≤ 8) :
    Returns (endWord N bytes) fun word => ∀ i < 8, byteAt word i = bytes[i]?.getD 0 := by
  simp only [endWord, returns_bind, Exec.returns_copyFromSlice, returns_pure]
  refine ⟨⟨Nat.zero_le _, hN, hlen⟩, fun i hi => ?_⟩
  rw [byteAt_fromLeBytes _ (by decide) hi]
  simp

theorem ends_spec (hN : N ≤ xs.length) (h4 : N ≤ 4) :
    Returns (ends N xs) fun word => ∀ k < N, some (byteAt word k) = xs[k]? ∧
      some (byteAt word (N + k)) = xs[xs.length - N + k]? := by
  simp only [ends, returns_bind, Exec.returns_debugAssert, Exec.returns_sliceTo, Exec.returns_sub,
    Exec.returns_sliceFrom, decide_eq_true_eq]
  refine ⟨hN, hN, hN, Nat.sub_le _ _, ?_⟩
  apply returns_mono (endWord_spec (by simpa using hN) (by omega))
  intro first hfirst
  apply returns_mono (endWord_spec (by simp; omega) (by omega))
  intro last hlast
  simp only [Exec.returns_shl, returns_pure]
  refine ⟨by omega, fun k hk => ?_⟩
  have hback : xs.length - N + k < xs.length := by omega
  constructor
  · rw [byteAt_or, byteAt_shiftLeft _ _ (by omega), if_pos hk, BitVec.or_zero, hfirst k (by omega),
      List.getElem?_take_of_lt hk, List.getElem?_eq_getElem (by omega)]
    rfl
  · rw [byteAt_or, byteAt_shiftLeft _ _ (by omega), if_neg (by omega), Nat.add_sub_cancel_left,
      hfirst _ (by omega), hlast _ (by omega), List.getElem?_take_eq_none (by omega),
      List.getElem?_drop, List.getElem?_eq_getElem hback]
    exact congrArg some (BitVec.zero_or)

/-- Byte `k` of two words. -/
def byteOf (words : Vector U64 2) (k : ℕ) : U8 :=
  if k < 8 then byteAt (pairFirst words) k else byteAt (pairSecond words) (k - 8)

/-- The two words hold both ends, `n` bytes each, next to one another. -/
structure StagedEnds (xs : List U8) (words : Vector U64 2) (n : ℕ) : Prop where
  le_len : n ≤ xs.length
  cover : xs.length ≤ 2 * n
  le_eight : n ≤ 8
  front : ∀ k < n, some (byteOf words k) = xs[k]?
  back : ∀ k < n, some (byteOf words (n + k)) = xs[xs.length - n + k]?

theorem StagedEnds.of_ends {word : U64} (hN : N ≤ xs.length) (h4 : N ≤ 4) (hcover : xs.length ≤ 2 * N)
    (h : ∀ k < N, some (byteAt word k) = xs[k]? ∧
      some (byteAt word (N + k)) = xs[xs.length - N + k]?) : StagedEnds xs #v[word, 0] N := by
  refine ⟨hN, hcover, by omega, fun k hk => ?_, fun k hk => ?_⟩
  · rw [← (h k hk).1, byteOf, if_pos (by omega)]
    rfl
  · rw [← (h k hk).2, byteOf, if_pos (by omega)]
    rfl

theorem stagedWords_spec (h0 : 0 < xs.length) (h16 : xs.length < 16) :
    Returns (stagedWords xs) fun r => StagedEnds xs r.1 r.2 := by
  simp only [stagedWords, returns_ite, returns_bind, returns_pure]
  refine ⟨fun h8 => ?_, fun h8 => ⟨fun h4 => ?_, fun h4 => ⟨fun h2 => ?_, fun h2 => ?_⟩⟩⟩
  · obtain ⟨first, hfirst, hfirstAt⟩ := firstChunk_of_le h8
    obtain ⟨last, hlast, hlastAt⟩ := lastChunk_of_le h8
    rw [hfirst, hlast, Exec.returns_unwrap_some, Exec.returns_unwrap_some]
    refine ⟨h8, by omega, le_rfl, fun k hk => ?_, fun k hk => ?_⟩
    · rw [byteOf, if_pos hk]
      have h := hfirstAt.lane k hk
      rw [Nat.zero_add] at h
      rw [h, ← byteAt_fromLeBytes first (show 8 * 8 ≤ 64 by decide) hk]
      rfl
    · rw [byteOf, if_neg (by omega), Nat.add_sub_cancel_left, hlastAt.lane k hk,
        ← byteAt_fromLeBytes last (show 8 * 8 ≤ 64 by decide) hk]
      rfl
  · exact returns_mono (ends_spec h4 le_rfl) fun _ => .of_ends h4 le_rfl (by omega)
  · exact returns_mono (ends_spec h2 (by decide)) fun _ => .of_ends h2 (by decide) (by omega)
  · exact returns_mono (ends_spec h0 (by decide)) fun _ => .of_ends h0 (by decide) (by omega)

/-- Converting to little endian first, the bytes in memory are the bytes of the words. -/
theorem getElem_bitcastBytes [Target] (words : Vector U64 2) {k : ℕ} (hk : k < 16) :
    (bitcastBytes #v[toLe (pairFirst words), toLe (pairSecond words)])[k]? = some (byteOf words k) := by
  have hbytes (word : U64) (j : ℕ) (hj : j < 8) : (toNeBytes 8 (toLe word))[j]? =
      some (byteAt word j) := by
    rw [toNeBytes_toLe, toLeBytes, Vector.getElem?_eq_getElem hj, Vector.getElem_ofFn]
  simp only [bitcastBytes, byteOf]
  split_ifs with h
  · rw [Vector.getElem?_append_left h]
    exact hbytes _ _ h
  · rw [Vector.getElem?_append_right (by omega)]
    exact hbytes _ _ (by omega)

end Staging

section Lawful

variable [Target] {level : Level} {K : Type} [Kernel K] {kernel : K} (hlaw : Lawful level kernel)

include hlaw

theorem mem_matchesAt {w : Width} (chunk : Vector U8 w.lanes) (i : ℕ) :
    i ∈ trueLanes (matchesAt level kernel w chunk) ↔
      ∃ b, chunk[i]? = some b ∧ Kernel.matchesByte kernel b = true := by
  rw [matchesAt, hlaw w chunk, mem_trueLanes_map]

theorem trueLanes_matchesAt {w : Width} {xs : List U8} {off : ℕ} {chunk : Vector U8 w.lanes}
    (h : ChunkAt xs off chunk) : trueLanes (matchesAt level kernel w chunk) =
      window (matchSet (Kernel.matchesByte kernel) xs) off w.lanes := by
  rw [matchesAt, hlaw w chunk, window_matchSet h]

theorem stagedEndsBits_spec {xs : List U8} (h0 : 0 < xs.length) (h16 : xs.length < blockBytes) :
    Returns (stagedEndsBits level kernel xs) fun r =>
      r.2 ≤ xs.length ∧ xs.length ≤ 2 * r.2 ∧ r.2 ≤ 8 ∧
      (∀ k < r.2, r.1.getLsbD k = true ↔ k ∈ matchSet (Kernel.matchesByte kernel) xs) ∧
      ∀ k < r.2, r.1.getLsbD (r.2 + k) = true ↔
        xs.length - r.2 + k ∈ matchSet (Kernel.matchesByte kernel) xs := by
  simp only [stagedEndsBits, returns_bind, Exec.returns_debugAssert, returns_pure]
  refine ⟨by simp [h16, List.ne_nil_of_length_pos h0], ?_⟩
  apply returns_mono (stagedWords_spec h0 h16)
  intro r hr
  have hn := hr.le_eight
  have hbits (k : ℕ) (hk : k < 16) : (toBitmask (matchesAt level kernel .w16
      (bitcastBytes #v[toLe (pairFirst r.1), toLe (pairSecond r.1)]))).getLsbD k = true ↔
        Kernel.matchesByte kernel (byteOf r.1 k) = true := by
    rw [← mem_bitSet, bitSet_toBitmask (by decide), mem_matchesAt hlaw,
      getElem_bitcastBytes _ hk]
    simp
  refine ⟨hr.le_len, hr.cover, hn, fun k hk => ?_, fun k hk => ?_⟩
  · rw [hbits k (by omega), matchSet, Set.mem_ofPred_eq, ← hr.front k hk]
    simp
  · rw [hbits _ (by omega), matchSet, Set.mem_ofPred_eq, ← hr.back k hk]
    simp

theorem shortTailBits_spec {xs : List U8} (h0 : 0 < xs.length) (h16 : xs.length < blockBytes) :
    Returns (shortTailBits level kernel xs) fun bits =>
      bitSet bits = matchSet (Kernel.matchesByte kernel) xs := by
  have hlen : xs.length < 64 := h16.trans (by decide)
  rw [shortTailBits, returns_bind]
  apply returns_mono (stagedEndsBits_spec hlaw h0 h16)
  intro r h
  obtain ⟨hn, hcover, -, hfront, hback⟩ := h
  exact slideEnds_spec (clearFrom_length _ _) hn hcover hlen hfront hback

theorem tailBits_spec {xs tail : List U8} (hsuffix : tail <:+ xs) (h0 : 0 < tail.length)
    (h16 : tail.length < blockBytes) :
    Returns (tailBits level kernel xs tail) fun bits =>
      bitSet bits = matchSet (Kernel.matchesByte kernel) tail := by
  simp only [tailBits, returns_bind, Exec.returns_debugAssert]
  refine ⟨by simp [h16, List.ne_nil_of_length_pos h0], ?_⟩
  rcases Nat.lt_or_ge xs.length blockBytes with hshort | hlong
  · rw [lastChunk_of_lt hshort]
    exact shortTailBits_spec hlaw h0 h16
  · obtain ⟨chunk, hlast, hchunk⟩ := lastChunk_of_le hlong
    simp only [hlast, returns_bind, Exec.returns_sub, Exec.returns_shr]
    refine ⟨h16.le, (Nat.sub_le _ _).trans_lt (by decide), ?_⟩
    have hbits := bitSet_toBitmask (m := matchesAt level kernel .w16 chunk) (by decide)
    rw [trueLanes_matchesAt hlaw hchunk] at hbits
    rw [matchSet_suffix _ hsuffix]
    exact bitSet_shiftRight_window hbits h16.le hlong

theorem tails_upheld : TailContract (Kernel.matchesByte kernel) blockBytes (tailBits level kernel)
    (shortTailBits level kernel) := .of_specs (tailBits_spec hlaw) (shortTailBits_spec hlaw)

theorem anyTrue_matchesAt {w : Width} {xs : List U8} {off : ℕ} {chunk : Vector U8 w.lanes}
    (h : ChunkAt xs off chunk) : anyTrue (matchesAt level kernel w chunk) = true ↔
      window (matchSet (Kernel.matchesByte kernel) xs) off w.lanes ≠ ∅ := by
  rw [anyTrue_eq_true, trueLanes_matchesAt hlaw h]

theorem anyTrue_pair {xs : List U8} {off : ℕ} {pair : Vector (Vector U8 chunkBytes) 2}
    (hfirst : ChunkAt xs off (pairFirst pair))
    (hsecond : ChunkAt xs (off + chunkBytes) (pairSecond pair)) :
    anyTrue (maskOr (matchesAt level kernel .w64 (pairFirst pair))
      (matchesAt level kernel .w64 (pairSecond pair))) = true ↔
      window (matchSet (Kernel.matchesByte kernel) xs) off (chunkBytes + chunkBytes) ≠ ∅ := by
  rw [anyTrue_eq_true, trueLanes_maskOr, Ne, Set.union_empty_iff, trueLanes_matchesAt hlaw hfirst,
    trueLanes_matchesAt hlaw hsecond, ← window_add_eq_empty]

theorem bitSet_matchesAt {w : Width} {xs : List U8} {off : ℕ} {chunk : Vector U8 w.lanes}
    (h : ChunkAt xs off chunk) : bitSet (toBitmask (matchesAt level kernel w chunk)) =
      window (matchSet (Kernel.matchesByte kernel) xs) off w.lanes := by
  rw [bitSet_toBitmask (by cases w <;> decide), trueLanes_matchesAt hlaw h]

section Batches

variable {state : IterState} {offset : ℕ} (hge : state.scanOffset ≤ offset)
  (hclear : state.Passed (Kernel.matchesByte kernel) offset)

include hge hclear

/-- One turn of the pair loop; the two chunks fill the whole bitset. -/
theorem batchPair_spec {pair : Vector (Vector U8 chunkBytes) 2}
    (hfirst : ChunkAt state.haystack offset (pairFirst pair))
    (hsecond : ChunkAt state.haystack (offset + chunkBytes) (pairSecond pair)) :
    Returns (batchPair level kernel state pair offset) (Flow.Sat
      (BatchSpec (Kernel.matchesByte kernel) state)
      fun offset' => offset' = offset + 2 * chunkBytes ∧
        state.Passed (Kernel.matchesByte kernel) (offset + 2 * chunkBytes)) := by
  have hfirstBits : bitSet (toBitmask (matchesAt level kernel .w64 (pairFirst pair))) =
      window (matchSet (Kernel.matchesByte kernel) state.haystack) offset 64 :=
    bitSet_matchesAt hlaw hfirst
  have hsecondBits : bitSet (toBitmask (matchesAt level kernel .w64 (pairSecond pair))) =
      window (matchSet (Kernel.matchesByte kernel) state.haystack) (offset + 64) 64 :=
    bitSet_matchesAt hlaw hsecond
  have hfirstWide := bitSet_widen hfirstBits
  have hsecondWide := bitSet_widen hsecondBits
  have hbits := bitSet_pair hfirstWide hsecondWide (by decide)
  have hany := anyTrue_pair hlaw hfirst hsecond
  have hfits : offset + 64 + 64 ≤ state.haystack.length := hsecond.fits
  simp only [batchPair, returns_ite, returns_pure, flow_sat_ret, flow_sat_next, true_and]
  constructor
  · intro hhit
    exact .of_hit hge hclear (show offset + 128 ≤ _ by omega) le_rfl hbits (hany.mp hhit)
  · intro hmiss
    exact clearBelow_ahead_of_window hclear hge (hany.not_left.mp hmiss)

theorem batchVector_spec {w : Width} {chunk : Vector U8 w.lanes}
    (hchunk : ChunkAt state.haystack offset chunk) :
    Returns (batchVector level kernel w state chunk offset) (Flow.Sat
      (BatchSpec (Kernel.matchesByte kernel) state)
      fun offset' => offset' = offset + w.lanes ∧
        state.Passed (Kernel.matchesByte kernel) (offset + w.lanes)) := by
  have hany := anyTrue_matchesAt hlaw hchunk
  simp only [batchVector, returns_ite, returns_pure, flow_sat_ret, flow_sat_next, true_and]
  constructor
  · intro hhit
    exact .of_hit hge hclear hchunk.fits (by cases w <;> decide)
      (bitSet_widen (bitSet_matchesAt hlaw hchunk)) (hany.mp hhit)
  · intro hmiss
    exact clearBelow_ahead_of_window hclear hge (hany.not_left.mp hmiss)

end Batches

theorem batchTail_spec {state : IterState} {tail : List U8} (hsuffix : tail <:+ state.haystack)
    (hshort : tail.length < 16) (hle : state.scanOffset + tail.length ≤ state.haystack.length)
    (hclear : state.Passed (Kernel.matchesByte kernel) (state.haystack.length - tail.length)) :
    Returns (batchTail level kernel state tail) (BatchSpec (Kernel.matchesByte kernel) state) :=
  returns_batchTail (tails_upheld hlaw) hsuffix hshort (by decide) hle hclear

theorem nextMatchBatch_spec (state : IterState)
    (hstate : state.scanOffset ≤ state.haystack.length) :
    Returns (nextMatchBatch level kernel state) (BatchSpec (Kernel.matchesByte kernel) state) := by
  obtain ⟨htiles, -, hshort, hlen⟩ := asChunks_drop hstate (show 0 < chunkBytes by decide)
  have hrest := asChunks_drop_rest (n := chunkBytes) state.haystack state.scanOffset
  simp only [nextMatchBatch, returns_bind, Exec.returns_getUncheckedFrom, returns_andThen]
  refine ⟨hstate, ?_⟩
  apply returns_flow_mono (returns_scan_pairs (state.Passed _) _ htiles clearBelow_ahead
    fun offset pair hge hfirst hsecond hclear => batchPair_spec hlaw hge hclear hfirst hsecond)
  intro offset h
  obtain ⟨rfl, hclear⟩ := h
  have hodd : (asChunks 2 (asChunks chunkBytes (state.haystack.drop state.scanOffset)).1).2.length
      ≤ 1 := by
    rw [asChunks_rest_length]
    omega
  rw [ifLetOne_eq_forEach _ hodd]
  apply returns_flow_mono (returns_scan_tiles (state.Passed _) _ (tiles_rest htiles) hclear
    fun offset chunk hge hchunk hclear =>
      batchVector_spec (w := .w64) hlaw (by omega) hclear hchunk)
  intro offset h
  obtain ⟨rfl, hclear⟩ := h
  rw [pairs_rest_end] at hclear ⊢
  rw [hrest]
  obtain ⟨hblocks, hsuffix, hshort', hlen'⟩ := asChunks_drop
    (show state.scanOffset + (asChunks chunkBytes (state.haystack.drop state.scanOffset)).1.length *
      chunkBytes ≤ state.haystack.length by omega) (show 0 < blockBytes by decide)
  apply returns_flow_mono (returns_scan_tiles (state.Passed _) _ hblocks hclear
    fun offset block hge hblock hclear =>
      batchVector_spec (w := .w16) hlaw (by omega) hclear hblock)
  intro offset h
  obtain ⟨rfl, hclear⟩ := h
  exact batchTail_spec hlaw hsuffix hshort' (by omega) (hclear.mono (by omega))

/-- The documented contract of `next_match_batch`, from any offset into any haystack. -/
theorem vectorBatch_upholds_contract (state : IterState)
    (hstate : state.scanOffset ≤ state.haystack.length) :
    ∃ bits state', nextMatchBatch level kernel state = .ok (bits, state') ∧
      state'.haystack = state.haystack ∧
      state.scanOffset ≤ state'.matchBase ∧ state'.matchBase ≤ state'.scanOffset ∧
      state'.scanOffset ≤ state.haystack.length ∧
      state'.scanOffset - state'.matchBase ≤ 128 ∧
      (state.scanOffset < state'.scanOffset ∨ state.scanOffset = state.haystack.length) ∧
      (∀ o byte, state.haystack[o]? = some byte → Kernel.matchesByte kernel byte = true →
        state.scanOffset ≤ o → state'.matchBase ≤ o) ∧
      (∀ k, bits.getLsbD k = true ↔ state'.matchBase + k < state'.scanOffset ∧
        ∃ byte, state.haystack[state'.matchBase + k]? = some byte ∧
          Kernel.matchesByte kernel byte = true) ∧
      (bits = 0 → state'.scanOffset = state.haystack.length) := by
  obtain ⟨⟨bits, state'⟩, hrun, h⟩ := nextMatchBatch_spec hlaw state hstate
  exact ⟨bits, state', hrun, h.haystack_eq, h.base_ge, h.base_le, h.offset_le, h.span_le, h.advances,
    fun o byte hbyte hmatch => h.skips_none o ⟨byte, hbyte, hmatch⟩, h.bits_iff, h.exhausted⟩

omit [Target] hlaw in
theorem vectorBatch_upholds_contract_tail :
    let _ : Target := ⟨.x86, .little⟩
    ∃ bits state', nextMatchBatch (Level.ofFlags false true true true false .w32)
      (AnyOf.new #v[0x61#8]) ⟨[0x61#8, 0#8, 0#8, 0#8, 0#8, 0x61#8, 0#8, 0#8], 3, 0⟩ =
        .ok (bits, state') ∧
    3 < state'.scanOffset ∧ state'.matchBase ≤ 5 := by
  intro _
  obtain ⟨bits, state', hrun, -, -, -, -, -, hadvance, hskip, -, -⟩ :=
    vectorBatch_upholds_contract
      (anyOf_lawful (Level.ofFlags false true true true false .w32) #v[0x61#8])
      ⟨[0x61#8, 0#8, 0#8, 0#8, 0#8, 0x61#8, 0#8, 0#8], 3, 0⟩ (by decide)
  exact ⟨bits, state', hrun, hadvance.resolve_right (by decide),
    hskip 5 0x61#8 rfl (by simp [anyOf_matchesByte]) (by decide)⟩

end Lawful

end MemchrN.Simd
