import MemchrN.Swar.Scan

namespace MemchrN.Swar

section Definitions

variable {K : Type} [Kernel K] (kernel : K)

def firstLane (marks : U64) : Exec ℕ := do
  Exec.debugAssert (marks != 0)
  return trailingZeros marks / 8

def firstMatchPair (pair : Vector (Vector U8 wordBytes) 2) (offset : ℕ) :
    Exec (Flow (Option ℕ) ℕ) := do
  let firstMatch := matchesAt kernel (pairFirst pair)
  let secondMatch := matchesAt kernel (pairSecond pair)
  if firstMatch ||| secondMatch ≠ 0#64 then
    if firstMatch ≠ 0#64 then
      let lane ← firstLane firstMatch
      return .ret (some (offset + lane))
    else
      let lane ← firstLane secondMatch
      return .ret (some (offset + wordBytes + lane))
  return .next (offset + 2 * wordBytes)

def firstMatchWord (word : Vector U8 wordBytes) (offset : ℕ) : Exec (Flow (Option ℕ) ℕ) := do
  let marks := matchesAt kernel word
  if marks ≠ 0#64 then
    let lane ← firstLane marks
    return .ret (some (offset + lane))
  return .next (offset + wordBytes)

def firstMatchTail (haystack tail : List U8) : Exec (Option ℕ) := do
  if tail.isEmpty then return none
  let bits ← tailBits kernel haystack tail
  if bits = 0#64 then return none
  let base ← Exec.sub haystack.length tail.length
  return some (base + trailingZeros bits)

def firstMatch (haystack : List U8) : Exec (Option ℕ) :=
  if haystack.length < wordBytes then pure (haystack.findIdx? (Kernel.matchesByte kernel))
  else
    let (words, tail) := asChunks wordBytes haystack
    let (pairs, words) := asChunks 2 words
    andThen (forEach (firstMatchPair kernel) pairs 0) fun offset =>
      andThen (forEach (firstMatchWord kernel) words offset) fun _ =>
        firstMatchTail kernel haystack tail

def lastLane (marks : U64) : Exec ℕ := do
  Exec.debugAssert (marks != 0)
  let top ← Exec.sub 63 (leadingZeros marks)
  return top / 8

def lastMatchPair (pair : Vector (Vector U8 wordBytes) 2) (stop : ℕ) :
    Exec (Flow (Option ℕ) ℕ) := do
  let left := matchesAt kernel (pairFirst pair)
  let right := matchesAt kernel (pairSecond pair)
  let stop ← Exec.sub stop (2 * wordBytes)
  if left ||| right ≠ 0#64 then
    if right ≠ 0#64 then
      let lane ← lastLane right
      return .ret (some (stop + wordBytes + lane))
    else
      let lane ← lastLane left
      return .ret (some (stop + lane))
  return .next stop

def lastMatchWord (word : Vector U8 wordBytes) (stop : ℕ) : Exec (Flow (Option ℕ) ℕ) := do
  let marks := matchesAt kernel word
  let stop ← Exec.sub stop wordBytes
  if marks ≠ 0#64 then
    let lane ← lastLane marks
    return .ret (some (stop + lane))
  return .next stop

/-- The bytes before the first full word, read again with the word and masked. -/
def lastMatchPrefix (haystack front : List U8) : Exec (Option ℕ) := do
  if front.isEmpty then return none
  let word ← Exec.unwrap (firstChunk wordBytes haystack)
  let marks := matchesAt kernel word
  let missing ← Exec.sub wordBytes front.length
  let keep ← Exec.shr (BitVec.allOnes 64) (missing * 8)
  let marks := marks &&& keep
  if marks = 0#64 then return none
  let lane ← lastLane marks
  return some lane

def lastMatch (haystack : List U8) : Exec (Option ℕ) :=
  if haystack.length < wordBytes then
    andThen (forEach (probe (Kernel.matchesByte kernel)) haystack.zipIdx.reverse ()) fun _ => pure none
  else
    let (front, words) := asRchunks wordBytes haystack
    let (word, pairs) := asRchunks 2 words
    andThen (forEach (lastMatchPair kernel) pairs.reverse haystack.length) fun stop =>
      andThen (forEach (lastMatchWord kernel) word stop) fun _ =>
        lastMatchPrefix kernel haystack front

end Definitions

variable {K : Type} [Kernel K] {kernel : K} {L : Set ℕ} {off : ℕ} {marks : U64}

theorem returns_firstLane (h : MarksLanes 8 marks L) (hne : marks ≠ 0#64)
    (Q : ℕ → Prop) (hQ : ∀ lane, IsLeast L lane → Q lane) :
    Returns (firstLane marks) Q := by
  simp only [firstLane, returns_bind, Exec.returns_debugAssert, returns_pure]
  exact ⟨by simpa using hne, hQ _ (h.isLeast hne)⟩

theorem returns_lastLane (h : MarksLanes 8 marks L) (hne : marks ≠ 0#64)
    (Q : ℕ → Prop) (hQ : ∀ lane, IsGreatest L lane → Q lane) :
    Returns (lastLane marks) Q := by
  have hlt := leadingZeros_lt hne
  simp only [lastLane, returns_bind, Exec.returns_debugAssert, Exec.returns_sub, returns_pure]
  exact ⟨by simpa using hne, by omega, hQ _ (h.isGreatest hne)⟩

section Forward

variable {xs : List U8} (hlaw : Lawful kernel)

include hlaw

theorem firstMatchPair_spec {pair : Vector (Vector U8 wordBytes) 2}
    (hfirst : ChunkAt xs off (pairFirst pair)) (hsecond : ChunkAt xs (off + wordBytes) (pairSecond pair))
    (hclear : ClearBelow (matchSet (Kernel.matchesByte kernel) xs) off) :
    Returns (firstMatchPair kernel pair off) (Flow.Sat
      (LeastIn (matchSet (Kernel.matchesByte kernel) xs))
      fun off' => off' = off + 2 * wordBytes ∧
        ClearBelow (matchSet (Kernel.matchesByte kernel) xs) (off + 2 * wordBytes)) := by
  have hlanes := marksLanes_window hlaw hfirst
  have hlanes' := marksLanes_window hlaw hsecond
  have hnext (h : matchesAt kernel (pairFirst pair) = 0#64) := clearBelow_of_window hclear
    ((matchesAt_eq_zero hlaw hfirst).mp h)
  simp only [firstMatchPair, returns_ite, returns_bind, returns_pure, flow_sat_ret, flow_sat_next,
    BitVec.or_eq_zero_iff, true_and, ne_eq, not_not]
  refine ⟨fun hhit => ⟨fun hne => ?_, fun hzero => ?_⟩, fun hmiss => ?_⟩
  · exact returns_firstLane hlanes hne _ fun lane h => least_of_window hclear h
  · apply returns_firstLane hlanes' (fun h => hhit ⟨hzero, h⟩) _
    intro lane h
    exact least_of_window (hnext hzero) h
  · have h := clearBelow_of_window (hnext hmiss.1) ((matchesAt_eq_zero hlaw hsecond).mp hmiss.2)
    exact h

theorem firstMatchWord_spec {word : Vector U8 wordBytes} (hword : ChunkAt xs off word)
    (hclear : ClearBelow (matchSet (Kernel.matchesByte kernel) xs) off) :
    Returns (firstMatchWord kernel word off) (Flow.Sat
      (LeastIn (matchSet (Kernel.matchesByte kernel) xs))
      fun off' => off' = off + wordBytes ∧
        ClearBelow (matchSet (Kernel.matchesByte kernel) xs) (off + wordBytes)) := by
  simp only [firstMatchWord, returns_ite, returns_bind, returns_pure, flow_sat_ret, flow_sat_next,
    true_and, ne_eq, not_not]
  constructor
  · intro hne
    exact returns_firstLane (marksLanes_window hlaw hword) hne _ fun lane h =>
      least_of_window hclear h
  · intro hzero
    exact clearBelow_of_window hclear ((matchesAt_eq_zero hlaw hword).mp hzero)

theorem firstMatchTail_spec {tail : List U8} (hsuffix : tail <:+ xs) (hshort : tail.length < 8)
    (hclear : ClearBelow (matchSet (Kernel.matchesByte kernel) xs) (xs.length - tail.length)) :
    Returns (firstMatchTail kernel xs tail) (LeastIn (matchSet (Kernel.matchesByte kernel) xs)) := by
  have hend : xs.length - tail.length + tail.length = xs.length :=
    Nat.sub_add_cancel hsuffix.length_le
  have hnone (h : window (matchSet (Kernel.matchesByte kernel) xs) (xs.length - tail.length)
      tail.length = ∅) : matchSet (Kernel.matchesByte kernel) xs = ∅ :=
    empty_of_clear (hend ▸ clearBelow_of_window hclear h) (clearFrom_length _ _)
  simp only [firstMatchTail, returns_ite, returns_bind, returns_pure]
  refine ⟨fun hempty => hnone ?_, fun hne => ?_⟩
  · rw [← matchSet_suffix _ hsuffix, List.isEmpty_iff.mp hempty, matchSet_nil]
  · have hpos : 0 < tail.length := List.length_pos_iff.mpr (by simpa using hne)
    apply returns_mono (tailBits_spec hlaw hsuffix hpos hshort)
    intro bits hbits
    rw [matchSet_suffix _ hsuffix] at hbits
    simp only [Exec.returns_sub]
    refine ⟨fun hzero => hnone (hbits ▸ bitSet_eq_empty.mpr hzero), fun hbit => ?_⟩
    exact ⟨hsuffix.length_le, least_of_window hclear (hbits ▸ isLeast_trailingZeros hbit)⟩

theorem firstMatch_spec (xs : List U8) :
    Returns (firstMatch kernel xs) (LeastIn (matchSet (Kernel.matchesByte kernel) xs)) := by
  obtain ⟨htiles, hsuffix, hshort, hlen⟩ :=
    asChunks_drop (Nat.zero_le xs.length) (show 0 < wordBytes by decide)
  rw [List.drop_zero] at htiles hsuffix hshort hlen
  simp only [firstMatch, returns_ite, returns_pure, returns_andThen]
  refine ⟨fun _ => leastIn_findIdx _ xs, fun _ => ?_⟩
  apply returns_flow_mono (returns_scan_pairs (ClearBelow _) _ htiles clearBelow_zero
    fun off pair _ => firstMatchPair_spec hlaw)
  intro off h
  obtain ⟨rfl, hclear⟩ := h
  apply returns_flow_mono (returns_scan_tiles (ClearBelow _) _ (tiles_rest htiles) hclear
    fun off word _ => firstMatchWord_spec hlaw)
  intro off h
  obtain ⟨rfl, hclear⟩ := h
  rw [pairs_rest_end] at hclear
  exact firstMatchTail_spec hlaw hsuffix hshort (hclear.mono (by omega))

/-- The first matching offset, whatever the length leaves of pairs, words and tail. -/
theorem swarFirst_finds_least (xs : List U8) : ∃ r, firstMatch kernel xs = .ok r ∧
    (∀ o, r = some o ↔
      IsLeast {o | ∃ byte, xs[o]? = some byte ∧ Kernel.matchesByte kernel byte = true} o) ∧
    (r = none ↔ ∀ byte ∈ xs, Kernel.matchesByte kernel byte = false) := by
  obtain ⟨r, hrun, hleast⟩ := firstMatch_spec hlaw xs
  exact ⟨r, hrun, hleast.offset_iff⟩

omit hlaw in
theorem swarFirst_finds_least_tail :
    firstMatch (NotByte.new 0x61#8) (List.replicate 17 0x61#8 ++ [0x62#8, 0x63#8]) =
      .ok (some 17) := by
  obtain ⟨r, hrun, hleast, -⟩ := swarFirst_finds_least (notByte_lawful 0x61#8)
    (List.replicate 17 0x61#8 ++ [0x62#8, 0x63#8])
  rw [hrun, (hleast 17).mpr ⟨⟨_, rfl, rfl⟩, ?_⟩]
  intro o h
  obtain ⟨byte, hbyte, hmatch⟩ := h
  by_contra hlt
  have hprefix : (List.replicate 17 0x61#8)[o]? = some byte := by
    rwa [List.getElem?_append_left (by simp; omega)] at hbyte
  rw [List.eq_of_mem_replicate (List.mem_of_getElem? hprefix)] at hmatch
  exact absurd hmatch (by decide)

end Forward

section Backward

variable {xs : List U8}

variable (hlaw : Lawful kernel)

include hlaw

theorem lastMatchPair_spec {pair : Vector (Vector U8 wordBytes) 2}
    (hleft : ChunkAt xs off (pairFirst pair)) (hright : ChunkAt xs (off + wordBytes) (pairSecond pair))
    (hclear : ClearFrom (matchSet (Kernel.matchesByte kernel) xs) (off + 2 * wordBytes)) :
    Returns (lastMatchPair kernel pair (off + 2 * wordBytes)) (Flow.Sat
      (GreatestIn (matchSet (Kernel.matchesByte kernel) xs))
      fun off' => off' = off ∧ ClearFrom (matchSet (Kernel.matchesByte kernel) xs) off) := by
  have hclear : ClearFrom (matchSet (Kernel.matchesByte kernel) xs)
    (off + wordBytes + wordBytes) := hclear
  have hnext (h : matchesAt kernel (pairSecond pair) = 0#64) := clearFrom_of_window hclear
    ((matchesAt_eq_zero hlaw hright).mp h)
  simp only [lastMatchPair, returns_ite, returns_bind, returns_pure, flow_sat_ret, flow_sat_next,
    BitVec.or_eq_zero_iff, ne_eq, not_not, Exec.returns_sub, Nat.add_sub_cancel, true_and]
  refine ⟨Nat.le_add_left _ _, fun hhit => ⟨fun hne => ?_, fun hzero => ?_⟩, fun hmiss => ?_⟩
  · exact returns_lastLane (marksLanes_window hlaw hright) hne _ fun lane h =>
      greatest_of_window hclear h
  · refine returns_lastLane (marksLanes_window hlaw hleft) (fun h => hhit ⟨h, hzero⟩) _
      fun lane h => ?_
    exact greatest_of_window (hnext hzero) h
  · exact clearFrom_of_window (hnext hmiss.2) ((matchesAt_eq_zero hlaw hleft).mp hmiss.1)

theorem lastMatchWord_spec {word : Vector U8 wordBytes} (hword : ChunkAt xs off word)
    (hclear : ClearFrom (matchSet (Kernel.matchesByte kernel) xs) (off + wordBytes)) :
    Returns (lastMatchWord kernel word (off + wordBytes)) (Flow.Sat
      (GreatestIn (matchSet (Kernel.matchesByte kernel) xs))
      fun off' => off' = off ∧ ClearFrom (matchSet (Kernel.matchesByte kernel) xs) off) := by
  simp only [lastMatchWord, returns_ite, returns_bind, returns_pure, flow_sat_ret, flow_sat_next,
    ne_eq, not_not, Exec.returns_sub, Nat.add_sub_cancel, true_and]
  refine ⟨Nat.le_add_left _ _, fun hne => ?_, fun hzero => ?_⟩
  · exact returns_lastLane (marksLanes_window hlaw hword) hne _ fun lane h =>
      greatest_of_window hclear h
  · exact clearFrom_of_window hclear ((matchesAt_eq_zero hlaw hword).mp hzero)

/-- The first word of the haystack, cut down to the bytes not yet scanned. -/
theorem lastMatchPrefix_spec {front : List U8} (hshort : front.length < 8)
    (hlong : wordBytes ≤ xs.length)
    (hclear : ClearFrom (matchSet (Kernel.matchesByte kernel) xs) front.length) :
    Returns (lastMatchPrefix kernel xs front)
      (GreatestIn (matchSet (Kernel.matchesByte kernel) xs)) := by
  obtain ⟨word, hfirst, hword⟩ := firstChunk_of_le hlong
  simp only [lastMatchPrefix, returns_ite, returns_bind, returns_pure, hfirst,
    Exec.returns_unwrap_some, Exec.returns_sub, Exec.returns_shr]
  refine ⟨fun hempty => empty_of_clear clearBelow_zero ?_, fun hne => ⟨hshort.le, ?_, ?_⟩⟩
  · rwa [List.isEmpty_iff.mp hempty] at hclear
  · have hpos : 0 < front.length := List.length_pos_iff.mpr (by simpa using hne)
    show (8 - front.length) * 8 < 64
    omega
  have hkeep (k : ℕ) (hk : k < 64) :
      (BitVec.allOnes 64 >>> ((8 - front.length) * 8)).getLsbD k = decide (k < 8 * front.length) := by
    rw [BitVec.getLsbD_ushiftRight, BitVec.getLsbD_allOnes]
    congr 1
    simp only [eq_iff_iff]
    omega
  have hlanes := (marksLanes_window hlaw hword).mask (by decide) hkeep
  have hcut : {i ∈ window (matchSet (Kernel.matchesByte kernel) xs) 0 wordBytes |
      i < front.length} = matchSet (Kernel.matchesByte kernel) xs := by
    ext i
    simp only [window, Nat.zero_add, Set.mem_ofPred_eq]
    exact ⟨fun h => h.1.2, fun h => ⟨⟨(hclear i h).trans hshort, h⟩, hclear i h⟩⟩
  rw [hcut] at hlanes
  refine ⟨fun hzero => hlanes.eq_empty_iff.mpr hzero, fun hbits => ?_⟩
  exact returns_lastLane hlanes hbits _ fun lane h => h

theorem lastMatch_spec (xs : List U8) :
    Returns (lastMatch kernel xs) (GreatestIn (matchSet (Kernel.matchesByte kernel) xs)) := by
  have htiles : Tiles xs (xs.length % wordBytes) (asRchunks wordBytes xs).2 := tiles_asRchunks xs
  obtain ⟨hfront, hrev, hodd⟩ := tiles_front htiles
  have hfull := Nat.mod_add_div' xs.length wordBytes
  rw [← asRchunks_length] at hfull
  simp only [lastMatch, returns_ite, returns_andThen, returns_pure]
  constructor
  · intro _
    have hprobe := returns_probe_back (Kernel.matchesByte kernel) xs xs.length
    rw [List.take_of_length_le (by simp), Nat.sub_self] at hprobe
    exact returns_flow_mono hprobe fun _ hclear =>
      empty_of_clear clearBelow_zero hclear
  · intro hlong
    have hend := clearFrom_length (Kernel.matchesByte kernel) xs
    rw [← hfull] at hend ⊢
    apply returns_flow_mono (returns_scan_pairs_rev (ClearFrom _) _ htiles hend
      fun off pair _ => lastMatchPair_spec hlaw)
    intro stop h
    obtain ⟨rfl, hclear⟩ := h
    rw [← hodd] at hclear
    rw [← hrev, ← hodd]
    apply returns_flow_mono (returns_scan_tiles_rev (ClearFrom _) _ hfront hclear
      fun off word _ => lastMatchWord_spec hlaw)
    intro stop h
    obtain ⟨rfl, hclear⟩ := h
    have hlen := asRchunks_front_length (n := wordBytes) xs
    refine lastMatchPrefix_spec hlaw ?_ (Nat.le_of_not_lt hlong) (by rwa [hlen])
    rw [hlen]
    exact Nat.mod_lt _ (by decide)

omit hlaw in
/-- The prefix is shorter than a word, so its mask drops between one byte and seven. -/
theorem prefix_shift_bounds (hfront : (asRchunks wordBytes xs).1 ≠ []) :
    8 ≤ (wordBytes - (asRchunks wordBytes xs).1.length) * 8 ∧
      (wordBytes - (asRchunks wordBytes xs).1.length) * 8 ≤ 56 := by
  have hpos : 0 < (asRchunks wordBytes xs).1.length := List.length_pos_iff.mpr hfront
  have hshort : (asRchunks wordBytes xs).1.length < 8 := by
    rw [asRchunks_front_length]
    exact Nat.mod_lt _ (by decide)
  show 8 ≤ (8 - _) * 8 ∧ (8 - _) * 8 ≤ 56
  omega

/-- The last matching offset, whatever the length leaves of pairs, an odd word and a prefix. -/
theorem swarLast_finds_greatest (xs : List U8) : (∃ r, lastMatch kernel xs = .ok r ∧
      (∀ o, r = some o ↔
        IsGreatest {o | ∃ byte, xs[o]? = some byte ∧ Kernel.matchesByte kernel byte = true} o) ∧
      (r = none ↔ ∀ byte ∈ xs, Kernel.matchesByte kernel byte = false)) ∧
    (wordBytes ≤ xs.length → (firstChunk wordBytes xs).isSome = true) ∧
    ((asRchunks wordBytes xs).1 ≠ [] →
      8 ≤ (wordBytes - (asRchunks wordBytes xs).1.length) * 8 ∧
        (wordBytes - (asRchunks wordBytes xs).1.length) * 8 ≤ 56) := by
  obtain ⟨r, hrun, hgreatest⟩ := lastMatch_spec hlaw xs
  refine ⟨⟨r, hrun, hgreatest.offset_iff⟩, ?_, prefix_shift_bounds⟩
  intro hlong
  obtain ⟨word, hword, -⟩ := firstChunk_of_le hlong
  rw [hword, Option.isSome_some]

omit hlaw in
theorem swarLast_finds_greatest_prefix :
    lastMatch (NotByte.new 0x61#8) ([0x62#8, 0x63#8] ++ List.replicate 9 0x61#8) =
      .ok (some 1) := by
  obtain ⟨⟨r, hrun, hgreatest, -⟩, -⟩ := swarLast_finds_greatest (notByte_lawful 0x61#8)
    ([0x62#8, 0x63#8] ++ List.replicate 9 0x61#8)
  rw [hrun, (hgreatest 1).mpr ⟨⟨_, rfl, rfl⟩, ?_⟩]
  intro o h
  obtain ⟨byte, hbyte, hmatch⟩ := h
  by_contra hlt
  have hrest : (List.replicate 9 0x61#8)[o - 2]? = some byte := by
    rwa [List.getElem?_append_right (by simp; omega)] at hbyte
  rw [List.eq_of_mem_replicate (List.mem_of_getElem? hrest)] at hmatch
  exact absurd hmatch (by decide)

end Backward

end MemchrN.Swar
