import MemchrN.Vector.Scan

namespace MemchrN.Simd

/-- Leading or trailing bytes probed before the ends are staged. -/
abbrev probeBytes : ℕ := 1

section Definitions

variable [Target] (level : Level) {K : Type} [Kernel K] (kernel : K)

/-- `first_matching_lane(kernel.matches(..))`. -/
def firstMatchAt (w : Width) (chunk : Vector U8 w.lanes) : Exec (Option ℕ) :=
  firstMatchingLane level (matchesAt level kernel w chunk)

def lastMatchAt (w : Width) (chunk : Vector U8 w.lanes) : Exec (Option ℕ) :=
  lastMatchingLane level (matchesAt level kernel w chunk)

/-- The first chunk alone, before the paired loop. -/
def firstMatchFront (chunk : Vector U8 chunkBytes) (_ : ℕ) : Exec (Flow (Option ℕ) ℕ) := do
  if anyTrue (matchesAt level kernel .w64 chunk) then
    return .ret (← firstMatchAt level kernel .w64 chunk)
  return .next chunkBytes

def firstMatchPair (pair : Vector (Vector U8 chunkBytes) 2) (offset : ℕ) :
    Exec (Flow (Option ℕ) ℕ) := do
  let matchedFirst := matchesAt level kernel .w64 (pairFirst pair)
  let matchedSecond := matchesAt level kernel .w64 (pairSecond pair)
  if anyTrue (maskOr matchedFirst matchedSecond) then
    match ← firstMatchAt level kernel .w64 (pairFirst pair) with
    | some lane => return .ret (some (offset + lane))
    | none =>
      match ← firstMatchAt level kernel .w64 (pairSecond pair) with
      | some lane => return .ret (some (offset + chunkBytes + lane))
      | none =>
        Exec.debugAssert false
        return .ret (some (offset + chunkBytes + 0))
  return .next (offset + 2 * chunkBytes)

def firstMatchChunk (chunk : Vector U8 chunkBytes) (offset : ℕ) : Exec (Flow (Option ℕ) ℕ) := do
  if anyTrue (matchesAt level kernel .w64 chunk) then
    let lane ← firstMatchAt level kernel .w64 chunk
    return .ret (lane.map (offset + ·))
  return .next (offset + chunkBytes)

def firstMatchNative (chunk : List U8) (offset : ℕ) : Exec (Flow (Option ℕ) ℕ) := do
  let chunk ← Exec.fromSlice level.nativeWidth.lanes chunk
  match ← firstMatchAt level kernel level.nativeWidth chunk with
  | some lane => return .ret (some (offset + lane))
  | none => return .next (offset + level.nativeWidth.lanes)

/-- The last native vector, overlapping bytes already scanned. -/
def firstMatchBack (haystack : List U8) (offset : ℕ) : Exec (Option ℕ) := do
  if offset = haystack.length then return none
  let offset ← Exec.sub haystack.length level.nativeWidth.lanes
  let chunk ← Exec.sliceFrom haystack offset
  let chunk ← Exec.fromSlice level.nativeWidth.lanes chunk
  let lane ← firstMatchAt level kernel level.nativeWidth chunk
  return lane.map (offset + ·)

/-- Two overlapping vectors of 32 bytes. -/
def firstMatchTwoBlocks (len : ℕ) (front back : Vector U8 (2 * blockBytes)) :
    Exec (Option ℕ) := do
  if anyTrue (matchesAt level kernel .w32 front) then
    return ← firstMatchAt level kernel .w32 front
  if len = 2 * blockBytes then return none
  if !anyTrue (matchesAt level kernel .w32 back) then return none
  let base ← Exec.sub len (2 * blockBytes)
  let lane ← firstMatchAt level kernel .w32 back
  return lane.map (base + ·)

/-- Two overlapping vectors of 16 bytes. -/
def firstMatchBlock (len : ℕ) (front back : Vector U8 blockBytes) : Exec (Option ℕ) := do
  match ← firstMatchAt level kernel .w16 front with
  | some lane => return some lane
  | none =>
    if len = blockBytes then return none
    let base ← Exec.sub len blockBytes
    let lane ← firstMatchAt level kernel .w16 back
    return lane.map (base + ·)

/-- The two staged ends of what follows the probe, each half at its own offset. -/
def firstMatchStaged (haystack : List U8) : Exec (Option ℕ) := do
  let len := haystack.length
  if len ≤ probeBytes then return none
  let rest ← Exec.sliceFrom haystack probeBytes
  let (bits, stagedLen) ← stagedEndsBits level kernel rest
  let keep ← keepMask stagedLen
  let front := bits &&& keep
  if front ≠ 0#64 then return some (probeBytes + trailingZeros front)
  let back ← Exec.shr bits stagedLen
  let back := back &&& keep
  if back = 0#64 then return none
  let base ← Exec.sub len stagedLen
  return some (base + trailingZeros back)

def firstMatchShort (haystack : List U8) : Exec (Option ℕ) := do
  Exec.debugAssert (decide (haystack.length < chunkBytes))
  let len := haystack.length
  match firstChunk (2 * blockBytes) haystack, lastChunk (2 * blockBytes) haystack with
  | some front, some back => firstMatchTwoBlocks level kernel len front back
  | _, _ =>
    match firstChunk blockBytes haystack, lastChunk blockBytes haystack with
    | some front, some back => firstMatchBlock level kernel len front back
    | _, _ =>
      andThen (forEach (probe (Kernel.matchesByte kernel)) (haystack.take probeBytes).zipIdx ())
        fun _ => firstMatchStaged level kernel haystack

/-- The first chunk, pairs of chunks, an odd chunk, native vectors, then the last one again. -/
def firstMatch (haystack : List U8) : Exec (Option ℕ) :=
  if haystack.length < chunkBytes then firstMatchShort level kernel haystack
  else
    let (chunks, rest) := asChunks chunkBytes haystack
    let (first, chunks) := chunks.splitAt 1
    andThen (ifLetOne (firstMatchFront level kernel) first 0) fun offset =>
      let (pairs, lastChunk) := asChunks 2 chunks
      andThen (forEach (firstMatchPair level kernel) pairs offset) fun offset =>
        andThen (ifLetOne (firstMatchChunk level kernel) lastChunk offset) fun offset =>
          let natives := if level.nativeWidth.lanes < chunkBytes
            then chunksExact level.nativeWidth.lanes rest else []
          andThen (forEach (firstMatchNative level kernel) natives offset) fun offset =>
            firstMatchBack level kernel haystack offset

def lastMatchPair (pair : Vector (Vector U8 chunkBytes) 2) (stop : ℕ) :
    Exec (Flow (Option ℕ) ℕ) := do
  let left := matchesAt level kernel .w64 (pairFirst pair)
  let right := matchesAt level kernel .w64 (pairSecond pair)
  let stop ← Exec.sub stop (2 * chunkBytes)
  if anyTrue (maskOr left right) then
    match ← lastMatchAt level kernel .w64 (pairSecond pair) with
    | some lane => return .ret (some (stop + chunkBytes + lane))
    | none =>
      let lane ← lastMatchAt level kernel .w64 (pairFirst pair)
      let lane ← Exec.unwrap lane
      return .ret (some (stop + lane))
  return .next stop

/-- One vector that ends at `stop`. -/
def lastMatchVector (w : Width) (chunk : Vector U8 w.lanes) (stop : ℕ) :
    Exec (Flow (Option ℕ) ℕ) := do
  let stop ← Exec.sub stop w.lanes
  match ← lastMatchAt level kernel w chunk with
  | some lane => return .ret (some (stop + lane))
  | none => return .next stop

def lastMatchNative (chunk : List U8) (stop : ℕ) : Exec (Flow (Option ℕ) ℕ) := do
  let chunk ← Exec.fromSlice level.nativeWidth.lanes chunk
  lastMatchVector level kernel level.nativeWidth chunk stop

/-- The first native vector, overlapping bytes already scanned. -/
def lastMatchFront (haystack : List U8) (stop : ℕ) : Exec (Option ℕ) := do
  if stop = 0 then return none
  let chunk ← Exec.sliceTo haystack level.nativeWidth.lanes
  let chunk ← Exec.fromSlice level.nativeWidth.lanes chunk
  lastMatchAt level kernel level.nativeWidth chunk

/-- Two overlapping vectors, the back one first. -/
def lastMatchEnds (w : Width) (len : ℕ) (front back : Vector U8 w.lanes) : Exec (Option ℕ) := do
  match ← lastMatchAt level kernel w back with
  | some lane =>
    let base ← Exec.sub len w.lanes
    return some (base + lane)
  | none =>
    if len = w.lanes then return none
    lastMatchAt level kernel w front

def lastMatchStaged (haystack : List U8) : Exec (Option ℕ) := do
  let len := haystack.length
  if len ≤ probeBytes then return none
  let stop ← Exec.sub len probeBytes
  let front ← Exec.sliceTo haystack stop
  let bits ← shortTailBits level kernel front
  if bits = 0#64 then return none
  let lane ← Exec.sub 63 (leadingZeros bits)
  return some lane

def lastMatchShort (haystack : List U8) : Exec (Option ℕ) := do
  Exec.debugAssert (decide (haystack.length < chunkBytes))
  let len := haystack.length
  match firstChunk (2 * blockBytes) haystack, lastChunk (2 * blockBytes) haystack with
  | some front, some back => lastMatchEnds level kernel .w32 len front back
  | _, _ =>
    match firstChunk blockBytes haystack, lastChunk blockBytes haystack with
    | some front, some back => lastMatchEnds level kernel .w16 len front back
    | _, _ =>
      andThen (forEach (probe (Kernel.matchesByte kernel))
        (haystack.zipIdx.reverse.take probeBytes) ())
        fun _ => lastMatchStaged level kernel haystack

/-- The last chunk, pairs of chunks, an odd chunk, native vectors, then the first one again. -/
def lastMatch (haystack : List U8) : Exec (Option ℕ) :=
  if haystack.length < chunkBytes then lastMatchShort level kernel haystack
  else do
    let (front, chunks) := asRchunks chunkBytes haystack
    let (last, chunks) ← Exec.unwrap (splitLast chunks)
    andThen (lastMatchVector level kernel .w64 last haystack.length) fun stop =>
      let (firstChunk, pairs) := asRchunks 2 chunks
      andThen (forEach (lastMatchPair level kernel) pairs.reverse stop) fun stop =>
        andThen (ifLetOne (lastMatchVector level kernel .w64) firstChunk stop) fun stop =>
          let natives := if level.nativeWidth.lanes < chunkBytes
            then rchunksExact level.nativeWidth.lanes front else []
          andThen (forEach (lastMatchNative level kernel) natives stop) fun stop =>
            lastMatchFront level kernel haystack stop

end Definitions

variable [Target] {level : Level} {K : Type} [Kernel K] {kernel : K} (hlaw : Lawful level kernel)
  {xs : List U8} {off : ℕ}

include hlaw

section Forward

theorem firstMatchAt_spec {w : Width} {chunk : Vector U8 w.lanes} (hchunk : ChunkAt xs off chunk) :
    Returns (firstMatchAt level kernel w chunk)
      (LeastIn (window (matchSet (Kernel.matchesByte kernel) xs) off w.lanes)) := by
  have h := firstMatchingLane_spec level (matchesAt level kernel w chunk)
  rwa [trueLanes_matchesAt hlaw hchunk] at h

variable (hclear : ClearBelow (matchSet (Kernel.matchesByte kernel) xs) off)

theorem firstMatchFront_spec {chunk : Vector U8 chunkBytes} (hchunk : ChunkAt xs 0 chunk) :
    Returns (firstMatchFront level kernel chunk 0) (Flow.Sat
      (LeastIn (matchSet (Kernel.matchesByte kernel) xs)) fun off' => off' = chunkBytes ∧
        ClearBelow (matchSet (Kernel.matchesByte kernel) xs) chunkBytes) := by
  have hany := anyTrue_matchesAt (w := .w64) hlaw hchunk
  simp only [firstMatchFront, returns_ite, returns_bind, returns_pure, flow_sat_ret, flow_sat_next,
    true_and]
  constructor
  · intro hhit
    apply returns_mono (firstMatchAt_spec hlaw (w := .w64) hchunk)
    intro lane hlane
    cases lane with
    | none =>
      exact absurd hlane (hany.mp hhit)
    | some i => simpa [LeastIn] using least_of_window clearBelow_zero hlane
  · intro hmiss
    have h := clearBelow_of_window clearBelow_zero (hany.not_left.mp hmiss)
    rwa [Nat.zero_add] at h

include hclear

theorem firstMatchPair_spec {pair : Vector (Vector U8 chunkBytes) 2}
    (hfirst : ChunkAt xs off (pairFirst pair)) (hsecond : ChunkAt xs (off + chunkBytes) (pairSecond pair)) :
    Returns (firstMatchPair level kernel pair off) (Flow.Sat
      (LeastIn (matchSet (Kernel.matchesByte kernel) xs)) fun off' => off' = off + 2 * chunkBytes ∧
        ClearBelow (matchSet (Kernel.matchesByte kernel) xs) (off + 2 * chunkBytes)) := by
  have hany := anyTrue_pair hlaw hfirst hsecond
  simp only [firstMatchPair, returns_ite, returns_bind, returns_pure, flow_sat_next, true_and]
  constructor
  · intro hhit
    apply returns_mono (firstMatchAt_spec hlaw (w := .w64) hfirst)
    intro lane hlane
    cases lane with
    | some i => exact (returns_pure _ _).mpr (least_of_window hclear hlane)
    | none =>
      rw [returns_bind]
      apply returns_mono (firstMatchAt_spec hlaw (w := .w64) hsecond)
      intro lane hlane'
      cases lane with
      | some i =>
        have hnext := clearBelow_of_window hclear hlane
        exact (returns_pure _ _).mpr (least_of_window hnext hlane')
      | none =>
        exact absurd (window_add_eq_empty.mpr ⟨hlane, hlane'⟩) (hany.mp hhit)
  · intro hmiss
    exact clearBelow_of_window hclear (hany.not_left.mp hmiss)

theorem firstMatchChunk_spec {chunk : Vector U8 chunkBytes} (hchunk : ChunkAt xs off chunk) :
    Returns (firstMatchChunk level kernel chunk off) (Flow.Sat
      (LeastIn (matchSet (Kernel.matchesByte kernel) xs)) fun off' => off' = off + chunkBytes ∧
        ClearBelow (matchSet (Kernel.matchesByte kernel) xs) (off + chunkBytes)) := by
  have hany := anyTrue_matchesAt (w := .w64) hlaw hchunk
  simp only [firstMatchChunk, returns_ite, returns_bind, returns_pure, flow_sat_ret, flow_sat_next,
    true_and]
  constructor
  · intro hhit
    apply returns_mono (firstMatchAt_spec hlaw (w := .w64) hchunk)
    intro lane hlane
    cases lane with
    | none =>
      exact absurd hlane (hany.mp hhit)
    | some i => exact least_of_window hclear hlane
  · intro hmiss
    exact clearBelow_of_window hclear (hany.not_left.mp hmiss)

theorem firstMatchNative_spec {chunk : Vector U8 level.nativeWidth.lanes}
    (hchunk : ChunkAt xs off chunk) :
    Returns (firstMatchNative level kernel chunk.toList off) (Flow.Sat
      (LeastIn (matchSet (Kernel.matchesByte kernel) xs))
      fun off' => off' = off + level.nativeWidth.lanes ∧
        ClearBelow (matchSet (Kernel.matchesByte kernel) xs) (off + level.nativeWidth.lanes)) := by
  rw [firstMatchNative, fromSlice_toList, pure_bind, returns_bind]
  apply returns_mono (firstMatchAt_spec hlaw hchunk)
  intro lane hlane
  cases lane with
  | some i => exact (returns_pure _ _).mpr (least_of_window hclear hlane)
  | none => exact (returns_pure _ _).mpr ⟨rfl, clearBelow_of_window hclear hlane⟩

/-- Native vectors cover the rest up to less than one of them. -/
theorem firstMatchNatives_spec (hle : off ≤ xs.length) (hrest : xs.length < off + chunkBytes) :
    Returns (forEach (firstMatchNative level kernel) (if level.nativeWidth.lanes < chunkBytes
        then chunksExact level.nativeWidth.lanes (xs.drop off) else []) off)
      (Flow.Sat (LeastIn (matchSet (Kernel.matchesByte kernel) xs)) fun off' =>
        (off' ≤ xs.length ∧ xs.length < off' + level.nativeWidth.lanes) ∧
          ClearBelow (matchSet (Kernel.matchesByte kernel) xs) off') := by
  have hpos := level.nativeWidth.lanes_pos
  split_ifs with hw
  · obtain ⟨htiles, -, hshort, hlen⟩ := asChunks_drop hle hpos
    rw [chunksExact, forEach_map]
    apply returns_flow_mono (returns_scan_tiles (ClearBelow _) _ htiles hclear
      fun off chunk _ hchunk hclear => firstMatchNative_spec hlaw hclear hchunk)
    intro off' h
    obtain ⟨rfl, hclear⟩ := h
    exact ⟨by omega, hclear⟩
  · exact (returns_pure _ _).mpr ⟨by omega, hclear⟩

/-- The last vector ends with the haystack; it may start before `off`. -/
theorem firstMatchBack_spec (hle : off ≤ xs.length)
    (hrest : xs.length ≤ off + level.nativeWidth.lanes) (hw : level.nativeWidth.lanes ≤ xs.length) :
    Returns (firstMatchBack level kernel xs off)
      (LeastIn (matchSet (Kernel.matchesByte kernel) xs)) := by
  simp only [firstMatchBack, returns_ite, returns_bind, returns_pure, Exec.returns_sub,
    Exec.returns_sliceFrom]
  refine ⟨fun hend => ?_, fun _ => ⟨hw, Nat.sub_le _ _, ?_⟩⟩
  · exact empty_of_clear (hend ▸ hclear) (clearFrom_length _ _)
  apply returns_fromSlice (by rw [List.length_drop]; omega) _
  intro chunk hchunk
  apply returns_mono (firstMatchAt_spec hlaw (hchunk.of_drop (Nat.sub_le _ _)))
  intro lane hlane
  refine leastIn_of_window (hclear.mono (by omega)) ?_ hlane
  rw [Nat.sub_add_cancel hw]
  exact clearFrom_length _ _

end Forward

section ForwardShort

theorem firstMatchTwoBlocks_spec {front back : Vector U8 (2 * blockBytes)}
    (hfront : ChunkAt xs 0 front) (hback : ChunkAt xs (xs.length - 2 * blockBytes) back)
    (hshort : xs.length < chunkBytes) :
    Returns (firstMatchTwoBlocks level kernel xs.length front back)
      (LeastIn (matchSet (Kernel.matchesByte kernel) xs)) := by
  have hany := anyTrue_matchesAt (w := .w32) hlaw hfront
  have hany' := anyTrue_matchesAt (w := .w32) hlaw hback
  have hend := clearFrom_length (Kernel.matchesByte kernel) xs
  have hlong : 0 + 32 ≤ xs.length := hfront.fits
  have hcover : xs.length - 32 + 32 = xs.length := by omega
  simp only [firstMatchTwoBlocks, returns_ite, returns_bind, returns_pure, Exec.returns_sub]
  refine ⟨fun hhit => ?_, fun hmiss => ?_⟩
  · apply returns_mono (firstMatchAt_spec hlaw (w := .w32) hfront)
    intro lane hlane
    cases lane with
    | none =>
      exact absurd hlane (hany.mp hhit)
    | some i => simpa [LeastIn] using least_of_window clearBelow_zero hlane
  have hclear : ClearBelow (matchSet (Kernel.matchesByte kernel) xs) (0 + 32) :=
    clearBelow_of_window clearBelow_zero (hany.not_left.mp hmiss)
  have hoverlap := hclear.mono (show xs.length - 32 ≤ 0 + 32 by
    have : xs.length < 64 := hshort
    omega)
  refine ⟨fun hexact => ?_, fun _ => ⟨fun hempty => ?_, fun _ => ⟨by omega, ?_⟩⟩⟩
  · exact empty_of_clear (hclear.mono (le_of_eq hexact)) hend
  · have hnone := clearBelow_of_window hoverlap (hany'.not_left.mp (by simpa using hempty))
    exact empty_of_clear (hnone.mono hcover.ge) hend
  · apply returns_mono (firstMatchAt_spec hlaw (w := .w32) hback)
    intro lane hlane
    exact leastIn_of_window hoverlap (hend.mono hcover.ge) hlane

theorem firstMatchBlock_spec {front back : Vector U8 blockBytes}
    (hfront : ChunkAt xs 0 front) (hback : ChunkAt xs (xs.length - blockBytes) back)
    (hshort : xs.length < 2 * blockBytes) :
    Returns (firstMatchBlock level kernel xs.length front back)
      (LeastIn (matchSet (Kernel.matchesByte kernel) xs)) := by
  have hend := clearFrom_length (Kernel.matchesByte kernel) xs
  have hlong : 0 + 16 ≤ xs.length := hfront.fits
  have hlt : xs.length < 2 * 16 := hshort
  rw [firstMatchBlock, returns_bind]
  apply returns_mono (firstMatchAt_spec hlaw (w := .w16) hfront)
  intro lane hlane
  cases lane with
  | some i =>
    exact (returns_pure _ _).mpr (by simpa [LeastIn] using least_of_window clearBelow_zero hlane)
  | none =>
    have hclear : ClearBelow (matchSet (Kernel.matchesByte kernel) xs) (0 + 16) :=
      clearBelow_of_window clearBelow_zero hlane
    simp only [returns_ite, returns_bind, returns_pure, Exec.returns_sub]
    refine ⟨fun hexact => ?_, fun _ => ⟨by omega, ?_⟩⟩
    · exact empty_of_clear (hclear.mono (le_of_eq hexact)) hend
    · apply returns_mono (firstMatchAt_spec hlaw (w := .w16) hback)
      intro lane hlane
      exact leastIn_of_window (hclear.mono (show xs.length - 16 ≤ 0 + 16 by omega))
        (hend.mono (show xs.length ≤ xs.length - 16 + 16 by omega)) hlane

theorem firstMatchStaged_spec (hshort : xs.length < blockBytes)
    (hclear : ClearBelow (matchSet (Kernel.matchesByte kernel) xs) (min probeBytes xs.length)) :
    Returns (firstMatchStaged level kernel xs)
      (LeastIn (matchSet (Kernel.matchesByte kernel) xs)) := by
  have hlt : xs.length < 16 := hshort
  have hend := clearFrom_length (Kernel.matchesByte kernel) xs
  simp only [firstMatchStaged, returns_ite, returns_bind, returns_pure, Exec.returns_sliceFrom]
  refine ⟨fun hone => ?_, fun hmore => ?_⟩
  · exact empty_of_clear (hclear.mono (le_min hone le_rfl)) hend
  have hmore : ¬xs.length ≤ 1 := hmore
  have hclear := hclear.mono (show 1 ≤ min 1 xs.length by omega)
  have hrest : (xs.drop probeBytes).length = xs.length - 1 := List.length_drop
  have hbehind : matchSet (Kernel.matchesByte kernel) (xs.drop probeBytes) =
      window (matchSet (Kernel.matchesByte kernel) xs) 1 (xs.length - 1) := matchSet_drop _ _ _
  refine ⟨show 1 ≤ xs.length by omega, ?_⟩
  apply returns_mono (stagedEndsBits_spec hlaw (by omega) (show _ < 16 by omega))
  intro r h
  obtain ⟨bits, n⟩ := r
  obtain ⟨hn, hcover, hn8, hfront, hback⟩ := h
  simp only [hbehind, hrest, window, Set.mem_ofPred_eq] at hn hcover hn8 hfront hback
  apply returns_keepMask (by omega) _
  intro mask hmask
  have hfrontBits : bitSet (bits &&& mask) =
      window (matchSet (Kernel.matchesByte kernel) xs) 1 n :=
    bitSet_keep hmask fun k hk => (hfront k hk).trans (and_iff_right (by omega))
  have hbackBits : bitSet (bits >>> n &&& mask) =
      window (matchSet (Kernel.matchesByte kernel) xs) (xs.length - n) n := by
    apply bitSet_keep hmask
    intro k hk
    rw [BitVec.getLsbD_ushiftRight, hback k hk,
      show 1 + (xs.length - 1 - n + k) = xs.length - n + k by omega]
    exact and_iff_right (by omega)
  simp only [Exec.returns_shr, Exec.returns_sub]
  refine ⟨fun hne => ?_, fun hzero => ⟨by omega, ?_⟩⟩
  · exact least_of_window hclear (hfrontBits ▸ isLeast_trailingZeros hne)
  have hempty := hfrontBits.symm.trans (bitSet_eq_empty.mpr (not_not.mp hzero))
  have hclear := (clearBelow_of_window hclear hempty).mono (show xs.length - n ≤ 1 + n by omega)
  have hcovered : xs.length - n + n = xs.length := by omega
  refine ⟨fun hzero => ?_, fun hne => ⟨by omega, ?_⟩⟩
  · have hempty := hbackBits.symm.trans (bitSet_eq_empty.mpr hzero)
    exact empty_of_clear ((clearBelow_of_window hclear hempty).mono hcovered.ge) hend
  · exact least_of_window hclear (hbackBits ▸ isLeast_trailingZeros hne)

theorem firstMatchShort_spec (hshort : xs.length < chunkBytes) :
    Returns (firstMatchShort level kernel xs)
      (LeastIn (matchSet (Kernel.matchesByte kernel) xs)) := by
  simp only [firstMatchShort, returns_bind, Exec.returns_debugAssert]
  refine ⟨by simpa using hshort, ?_⟩
  rcases Nat.lt_or_ge xs.length (2 * blockBytes) with h32 | h32
  · rw [firstChunk_of_lt h32]
    rcases Nat.lt_or_ge xs.length blockBytes with h16 | h16
    · rw [firstChunk_of_lt h16, returns_andThen]
      apply returns_flow_mono (returns_probe_front _ xs _)
      exact fun _ => firstMatchStaged_spec hlaw h16
    · obtain ⟨front, hfirst, hfront⟩ := firstChunk_of_le h16
      obtain ⟨back, hlast, hback⟩ := lastChunk_of_le h16
      rw [hfirst, hlast]
      exact firstMatchBlock_spec hlaw hfront hback h32
  · obtain ⟨front, hfirst, hfront⟩ := firstChunk_of_le h32
    obtain ⟨back, hlast, hback⟩ := lastChunk_of_le h32
    rw [hfirst, hlast]
    exact firstMatchTwoBlocks_spec hlaw hfront hback hshort

end ForwardShort

theorem firstMatch_spec (xs : List U8) :
    Returns (firstMatch level kernel xs) (LeastIn (matchSet (Kernel.matchesByte kernel) xs)) := by
  obtain ⟨htiles, -, hshort, hlen⟩ :=
    asChunks_drop (Nat.zero_le xs.length) (show 0 < chunkBytes by decide)
  have hrest := asChunks_drop_rest (n := chunkBytes) xs 0
  have hcount := asChunks_length (n := chunkBytes) xs
  rw [List.drop_zero] at htiles hshort hlen hrest
  simp only [firstMatch, returns_ite, List.splitAt_eq]
  refine ⟨firstMatchShort_spec hlaw, fun hlong => ?_⟩
  rw [hrest]
  rcases hcs : (asChunks chunkBytes xs).1 with _ | ⟨first, chunks⟩
  · rw [hcs, List.length_nil] at hcount
    exact absurd (Nat.div_eq_zero_iff_lt (by decide) |>.mp hcount.symm) hlong
  rw [hcs] at htiles hlen
  have hfirst : ChunkAt xs 0 first := by simpa using htiles 0 (Nat.succ_pos _)
  have hchunks : Tiles xs chunkBytes chunks := by simpa using htiles.drop 1
  simp only [List.take_succ_cons, List.take_zero, List.drop_succ_cons, List.drop_zero,
    ifLetOne_singleton, returns_andThen]
  apply returns_flow_mono (firstMatchFront_spec hlaw hfirst)
  intro off h
  obtain ⟨rfl, hclear⟩ := h
  apply returns_flow_mono (returns_scan_pairs (ClearBelow _) _ hchunks hclear
    fun off pair _ hfirst hsecond hclear => firstMatchPair_spec hlaw hclear hfirst hsecond)
  intro off h
  obtain ⟨rfl, hclear⟩ := h
  have hodd : (asChunks 2 chunks).2.length ≤ 1 := by
    rw [asChunks_rest_length]
    omega
  rw [ifLetOne_eq_forEach _ hodd]
  apply returns_flow_mono (returns_scan_tiles (ClearBelow _) _ (tiles_rest hchunks) hclear
    fun off chunk _ hchunk hclear => firstMatchChunk_spec hlaw hclear hchunk)
  intro off h
  obtain ⟨rfl, hclear⟩ := h
  rw [pairs_rest_end] at hclear ⊢
  have hcut : 0 + (first :: chunks).length * chunkBytes = chunkBytes + chunks.length * chunkBytes := by
    rw [List.length_cons, Nat.succ_mul]
    omega
  rw [hcut] at hlen ⊢
  apply returns_flow_mono (firstMatchNatives_spec hlaw hclear (by omega) (by omega))
  intro off hcase
  obtain ⟨⟨hle, hlt⟩, hclear⟩ := hcase
  exact firstMatchBack_spec hlaw hclear hle hlt.le
    (level.nativeWidth.lanes_le.trans (Nat.le_of_not_lt hlong))

/-- The first matching offset, at every native width and through every path of the scan. -/
theorem firstMatch_finds_least (xs : List U8) : ∃ r, firstMatch level kernel xs = .ok r ∧
    (∀ o, r = some o ↔
      IsLeast {o | ∃ byte, xs[o]? = some byte ∧ Kernel.matchesByte kernel byte = true} o) ∧
    (r = none ↔ ∀ byte ∈ xs, Kernel.matchesByte kernel byte = false) := by
  obtain ⟨r, hrun, hleast⟩ := firstMatch_spec hlaw xs
  exact ⟨r, hrun, hleast.offset_iff⟩

omit [Target] hlaw in
theorem firstMatch_finds_least_middle :
    let _ : Target := ⟨.x86, .little⟩
    firstMatch (Level.ofFlags false true true true false .w32) (AnyOf.new #v[0x61#8])
      [0x62#8, 0x61#8, 0x61#8] = .ok (some 1) := by
  intro _
  obtain ⟨r, hrun, hleast, -⟩ := firstMatch_finds_least
    (anyOf_lawful (Level.ofFlags false true true true false .w32) #v[0x61#8])
    [0x62#8, 0x61#8, 0x61#8]
  rw [hrun, (hleast 1).mpr ⟨⟨_, rfl, by simp [anyOf_matchesByte]⟩, ?_⟩]
  intro o h
  obtain ⟨byte, hbyte, hmatch⟩ := h
  refine Nat.pos_of_ne_zero ?_
  intro he
  subst he
  cases hbyte
  exact absurd hmatch (by simp [anyOf_matchesByte])

section Backward

theorem lastMatchAt_spec {w : Width} {chunk : Vector U8 w.lanes} (hchunk : ChunkAt xs off chunk) :
    Returns (lastMatchAt level kernel w chunk)
      (GreatestIn (window (matchSet (Kernel.matchesByte kernel) xs) off w.lanes)) := by
  have h := lastMatchingLane_spec level (matchesAt level kernel w chunk)
  rwa [trueLanes_matchesAt hlaw hchunk] at h

theorem lastMatchPair_spec {pair : Vector (Vector U8 chunkBytes) 2}
    (hleft : ChunkAt xs off (pairFirst pair)) (hright : ChunkAt xs (off + chunkBytes) (pairSecond pair))
    (hclear : ClearFrom (matchSet (Kernel.matchesByte kernel) xs) (off + 2 * chunkBytes)) :
    Returns (lastMatchPair level kernel pair (off + 2 * chunkBytes)) (Flow.Sat
      (GreatestIn (matchSet (Kernel.matchesByte kernel) xs))
      fun off' => off' = off ∧ ClearFrom (matchSet (Kernel.matchesByte kernel) xs) off) := by
  have hany := anyTrue_pair hlaw hleft hright
  have hclear : ClearFrom (matchSet (Kernel.matchesByte kernel) xs)
    (off + chunkBytes + chunkBytes) := hclear
  simp only [lastMatchPair, returns_ite, returns_bind, returns_pure, flow_sat_next, true_and,
    Exec.returns_sub, Nat.add_sub_cancel]
  refine ⟨Nat.le_add_left _ _, fun hhit => ?_, fun hmiss => ?_⟩
  · apply returns_mono (lastMatchAt_spec hlaw (w := .w64) hright)
    intro lane hlane
    cases lane with
    | some i => exact (returns_pure _ _).mpr (greatest_of_window hclear hlane)
    | none =>
      have hnext := clearFrom_of_window hclear hlane
      rw [returns_bind]
      apply returns_mono (lastMatchAt_spec hlaw (w := .w64) hleft)
      intro lane hlane'
      cases lane with
      | some i =>
        rw [returns_bind, Exec.returns_unwrap_some, returns_pure]
        exact greatest_of_window hnext hlane'
      | none =>
        exact absurd (window_add_eq_empty.mpr ⟨hlane', hlane⟩) (hany.mp hhit)
  · obtain ⟨hempty, hempty'⟩ := window_add_eq_empty.mp (hany.not_left.mp hmiss)
    exact clearFrom_of_window (clearFrom_of_window hclear hempty') hempty

theorem lastMatchVector_spec {w : Width} {chunk : Vector U8 w.lanes} (hchunk : ChunkAt xs off chunk)
    (hclear : ClearFrom (matchSet (Kernel.matchesByte kernel) xs) (off + w.lanes)) :
    Returns (lastMatchVector level kernel w chunk (off + w.lanes)) (Flow.Sat
      (GreatestIn (matchSet (Kernel.matchesByte kernel) xs))
      fun off' => off' = off ∧ ClearFrom (matchSet (Kernel.matchesByte kernel) xs) off) := by
  simp only [lastMatchVector, returns_bind, Exec.returns_sub, Nat.add_sub_cancel]
  refine ⟨Nat.le_add_left _ _, returns_mono (lastMatchAt_spec hlaw hchunk) fun lane hlane => ?_⟩
  cases lane with
  | some i => exact (returns_pure _ _).mpr (greatest_of_window hclear hlane)
  | none => exact (returns_pure _ _).mpr ⟨rfl, clearFrom_of_window hclear hlane⟩

theorem lastMatchNative_spec {chunk : Vector U8 level.nativeWidth.lanes}
    (hchunk : ChunkAt xs off chunk)
    (hclear : ClearFrom (matchSet (Kernel.matchesByte kernel) xs) (off + level.nativeWidth.lanes)) :
    Returns (lastMatchNative level kernel chunk.toList (off + level.nativeWidth.lanes)) (Flow.Sat
      (GreatestIn (matchSet (Kernel.matchesByte kernel) xs))
      fun off' => off' = off ∧ ClearFrom (matchSet (Kernel.matchesByte kernel) xs) off) := by
  rw [lastMatchNative, fromSlice_toList, pure_bind]
  exact lastMatchVector_spec hlaw hchunk hclear

/-- Native vectors cover the front down to less than one of them. -/
theorem lastMatchNatives_spec (hle : off ≤ xs.length) (hrest : off < chunkBytes)
    (hclear : ClearFrom (matchSet (Kernel.matchesByte kernel) xs) off) :
    Returns (forEach (lastMatchNative level kernel) (if level.nativeWidth.lanes < chunkBytes
        then rchunksExact level.nativeWidth.lanes (xs.take off) else []) off)
      (Flow.Sat (GreatestIn (matchSet (Kernel.matchesByte kernel) xs)) fun off' =>
        off' < level.nativeWidth.lanes ∧
          ClearFrom (matchSet (Kernel.matchesByte kernel) xs) off') := by
  have hpos := level.nativeWidth.lanes_pos
  split_ifs with hw
  · have htiles := (tiles_asRchunks (n := level.nativeWidth.lanes) (xs.take off)).of_take
    have hfull := Nat.mod_add_div' (xs.take off).length level.nativeWidth.lanes
    rw [← asRchunks_length, List.length_take, min_eq_left hle] at hfull
    rw [List.length_take, min_eq_left hle] at htiles
    rw [rchunksExact, ← List.map_reverse, forEach_map]
    rw [← hfull] at hclear
    have hloop := returns_scan_tiles_rev (ClearFrom _) _ htiles hclear
      fun off chunk _ => lastMatchNative_spec hlaw
    rw [hfull] at hloop
    apply returns_flow_mono hloop
    intro stop h
    obtain ⟨rfl, hclear⟩ := h
    exact ⟨Nat.mod_lt _ hpos, hclear⟩
  · exact (returns_pure _ _).mpr ⟨by omega, hclear⟩

theorem lastMatchFront_spec (hlt : off < level.nativeWidth.lanes)
    (hw : level.nativeWidth.lanes ≤ xs.length)
    (hclear : ClearFrom (matchSet (Kernel.matchesByte kernel) xs) off) :
    Returns (lastMatchFront level kernel xs off)
      (GreatestIn (matchSet (Kernel.matchesByte kernel) xs)) := by
  simp only [lastMatchFront, returns_ite, returns_bind, returns_pure, Exec.returns_sliceTo]
  refine ⟨fun hzero => empty_of_clear clearBelow_zero (hzero ▸ hclear), fun _ => ⟨hw, ?_⟩⟩
  apply returns_fromSlice (by rw [List.length_take, min_eq_left hw]) _
  intro chunk hchunk
  apply returns_mono (lastMatchAt_spec hlaw hchunk.of_take)
  intro lane hlane
  exact greatestIn_of_front (hclear.mono hlt.le) hlane

theorem lastMatchEnds_spec {w : Width} {front back : Vector U8 w.lanes} (hfront : ChunkAt xs 0 front)
    (hback : ChunkAt xs (xs.length - w.lanes) back) (hshort : xs.length ≤ 2 * w.lanes) :
    Returns (lastMatchEnds level kernel w xs.length front back)
      (GreatestIn (matchSet (Kernel.matchesByte kernel) xs)) := by
  have hlong := hfront.fits
  have hclear : ClearFrom (matchSet (Kernel.matchesByte kernel) xs)
      (xs.length - w.lanes + w.lanes) := (clearFrom_length _ xs).mono (by omega)
  rw [lastMatchEnds, returns_bind]
  apply returns_mono (lastMatchAt_spec hlaw hback)
  intro lane hlane
  cases lane with
  | some i =>
    simp only [returns_bind, Exec.returns_sub, returns_pure]
    exact ⟨by omega, greatest_of_window hclear hlane⟩
  | none =>
    have hclear := clearFrom_of_window hclear hlane
    simp only [returns_ite, returns_pure]
    constructor
    · intro hexact
      exact empty_of_clear clearBelow_zero (hclear.mono (by omega))
    · intro _
      apply returns_mono (lastMatchAt_spec hlaw hfront)
      intro lane hlane
      exact greatestIn_of_front (hclear.mono (by omega)) hlane

theorem lastMatchStaged_spec (hshort : xs.length < blockBytes)
    (hclear : ClearFrom (matchSet (Kernel.matchesByte kernel) xs) (xs.length - probeBytes)) :
    Returns (lastMatchStaged level kernel xs)
      (GreatestIn (matchSet (Kernel.matchesByte kernel) xs)) := by
  have hlt : xs.length < 16 := hshort
  simp only [lastMatchStaged, returns_ite, returns_bind, returns_pure, Exec.returns_sub,
    Exec.returns_sliceTo]
  refine ⟨fun hone => ?_, fun hmore => ⟨by omega, Nat.sub_le _ _, ?_⟩⟩
  · exact empty_of_clear clearBelow_zero (hclear.mono (Nat.sub_eq_zero_of_le hone).le)
  have hlen : (xs.take (xs.length - probeBytes)).length = xs.length - probeBytes := by
    rw [List.length_take, min_eq_left (Nat.sub_le _ _)]
  apply returns_mono (shortTailBits_spec hlaw (by omega) (by omega))
  intro bits hbits
  rw [matchSet_take, window_zero_of_clear hclear] at hbits
  constructor
  · intro hzero
    exact hbits.symm.trans (bitSet_eq_empty.mpr hzero)
  · intro hne
    exact ⟨Nat.le_of_lt_succ (leadingZeros_lt hne), hbits ▸ isGreatest_leadingZeros hne⟩

theorem lastMatchShort_spec (hshort : xs.length < chunkBytes) :
    Returns (lastMatchShort level kernel xs)
      (GreatestIn (matchSet (Kernel.matchesByte kernel) xs)) := by
  simp only [lastMatchShort, returns_bind, Exec.returns_debugAssert]
  refine ⟨by simpa using hshort, ?_⟩
  rcases Nat.lt_or_ge xs.length (2 * blockBytes) with h32 | h32
  · rw [firstChunk_of_lt h32]
    rcases Nat.lt_or_ge xs.length blockBytes with h16 | h16
    · rw [firstChunk_of_lt h16, returns_andThen]
      apply returns_flow_mono (returns_probe_back _ xs _)
      exact fun _ => lastMatchStaged_spec hlaw h16
    · obtain ⟨front, hfirst, hfront⟩ := firstChunk_of_le h16
      obtain ⟨back, hlast, hback⟩ := lastChunk_of_le h16
      rw [hfirst, hlast]
      exact lastMatchEnds_spec hlaw (w := .w16) hfront hback h32.le
  · obtain ⟨front, hfirst, hfront⟩ := firstChunk_of_le h32
    obtain ⟨back, hlast, hback⟩ := lastChunk_of_le h32
    rw [hfirst, hlast]
    exact lastMatchEnds_spec hlaw (w := .w32) hfront hback hshort.le

theorem lastMatch_spec (xs : List U8) :
    Returns (lastMatch level kernel xs) (GreatestIn (matchSet (Kernel.matchesByte kernel) xs)) := by
  have htiles : Tiles xs (xs.length % chunkBytes) (asRchunks chunkBytes xs).2 := tiles_asRchunks xs
  have hfull := Nat.mod_add_div' xs.length chunkBytes
  have hrest := Nat.mod_lt xs.length (show 0 < chunkBytes by decide)
  rw [← asRchunks_length] at hfull
  simp only [lastMatch, returns_ite]
  refine ⟨lastMatchShort_spec hlaw, fun hlong => ?_⟩
  have hpos : 0 < (asRchunks chunkBytes xs).2.length := by
    rw [asRchunks_length]
    exact Nat.div_pos (Nat.le_of_not_lt hlong) (by decide)
  obtain ⟨last, hlast, hchunk⟩ := splitLast_of_pos htiles hpos
  have hchunks := htiles.dropLast
  obtain ⟨hfront, hrev, hodd⟩ := tiles_front hchunks
  have hstop : xs.length = xs.length % chunkBytes +
      (asRchunks chunkBytes xs).2.dropLast.length * chunkBytes + chunkBytes := by
    rw [List.length_dropLast, Nat.add_assoc, ← Nat.succ_mul, Nat.succ_eq_add_one,
      Nat.sub_add_cancel hpos, hfull]
  rw [← List.length_dropLast] at hchunk
  have hlastSpec := lastMatchVector_spec hlaw (w := .w64) hchunk
    ((clearFrom_length _ xs).mono hstop.le)
  rw [show Width.w64.lanes = chunkBytes from rfl, ← hstop] at hlastSpec
  simp only [hlast, returns_bind, Exec.returns_unwrap_some, returns_andThen]
  apply returns_flow_mono hlastSpec
  intro t h
  obtain ⟨rfl, hclear⟩ := h
  apply returns_flow_mono (returns_scan_pairs_rev (ClearFrom _) _ hchunks hclear
    fun off pair _ => lastMatchPair_spec hlaw)
  intro stop h
  obtain ⟨rfl, hclear⟩ := h
  rw [← hodd] at hclear
  rw [ifLetOne_eq_forEach _ (by omega), ← hrev, ← hodd]
  apply returns_flow_mono (returns_scan_tiles_rev (ClearFrom _) _ hfront hclear
    fun off chunk _ => lastMatchVector_spec hlaw (w := .w64))
  intro stop h
  obtain ⟨rfl, hclear⟩ := h
  apply returns_flow_mono (lastMatchNatives_spec hlaw (Nat.mod_le _ _) hrest hclear)
  intro stop h
  obtain ⟨hlt, hclear⟩ := h
  exact lastMatchFront_spec hlaw hlt
    (level.nativeWidth.lanes_le.trans (Nat.le_of_not_lt hlong)) hclear

/-- The last matching offset, at every native width and through every path of the scan. -/
theorem lastMatch_finds_greatest (xs : List U8) : ∃ r, lastMatch level kernel xs = .ok r ∧
    (∀ o, r = some o ↔
      IsGreatest {o | ∃ byte, xs[o]? = some byte ∧ Kernel.matchesByte kernel byte = true} o) ∧
    (r = none ↔ ∀ byte ∈ xs, Kernel.matchesByte kernel byte = false) := by
  obtain ⟨r, hrun, hgreatest⟩ := lastMatch_spec hlaw xs
  exact ⟨r, hrun, hgreatest.offset_iff⟩

omit [Target] hlaw in
theorem lastMatch_finds_greatest_middle :
    let _ : Target := ⟨.aarch64, .little⟩
    lastMatch (Level.ofFlags false false false false true .w16) (AnyOf.new #v[0x61#8])
      [0x61#8, 0x61#8, 0x62#8] = .ok (some 1) := by
  intro _
  obtain ⟨r, hrun, hgreatest, -⟩ := lastMatch_finds_greatest
    (anyOf_lawful (Level.ofFlags false false false false true .w16) #v[0x61#8])
    [0x61#8, 0x61#8, 0x62#8]
  rw [hrun, (hgreatest 1).mpr ⟨⟨_, rfl, by simp [anyOf_matchesByte]⟩, ?_⟩]
  intro o h
  obtain ⟨byte, hbyte, hmatch⟩ := h
  have hlt : o < 3 := (List.getElem?_eq_some_iff.mp hbyte).1
  refine Nat.le_of_lt_succ (lt_of_le_of_ne (Nat.le_of_lt_succ hlt) ?_)
  intro he
  subst he
  cases hbyte
  exact absurd hmatch (by simp [anyOf_matchesByte])

end Backward

end MemchrN.Simd
