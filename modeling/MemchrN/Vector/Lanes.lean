import MemchrN.Vector.Level

namespace MemchrN.Simd

section Definitions

/-- The byte lanes that make up the 16-bit lane `j`. -/
def lowLane (lanes : Vector U8 16) (j : Fin 8) : U8 := lanes[2 * j.val]

def highLane (lanes : Vector U8 16) (j : Fin 8) : U8 := lanes[2 * j.val + 1]

/-- `vshrn_n_u16::<4>` on pairs of byte lanes, read back as a word: four bits a lane. -/
def aarch64MatchNibbles (lanes : Vector U8 16) : U64 :=
  let pairs := Vector.ofFn fun j : Fin 8 =>
    fromLeBytes 16 #v[lowLane lanes j, highLane lanes j]
  let bits := pairs.map fun pair : U16 => (pair >>> 4).setWidth 8
  fromLeBytes 64 bits

/-- `store_slice` into blocks of 16 lanes. -/
def storeSlice {n : ℕ} (matched : Vector Bool n) : List (Vector U8 16) :=
  (asChunks 16 matched.toList).1.map maskBytes

def firstNibbleLane (lanes : Vector U8 16) (i : ℕ) : Exec (Flow (Option ℕ) ℕ) := do
  let bits := aarch64MatchNibbles lanes
  if bits ≠ 0#64 then return .ret (some (i * 16 + trailingZeros bits / 4))
  return .next (i + 1)

def lastNibbleLane (lanes : Vector U8 16) (left : ℕ) : Exec (Flow (Option ℕ) ℕ) := do
  let i ← Exec.sub left 1
  let bits := aarch64MatchNibbles lanes
  if bits ≠ 0#64 then
    let top ← Exec.sub 63 (leadingZeros bits)
    return .ret (some (i * 16 + top / 4))
  return .next i

variable [Target] (level : Level) {w : Width}

/-- The blocks of a mask wider than one block, first to last. -/
def firstNibbleBlock {n : ℕ} (matched : Vector Bool n) : Exec (Option ℕ) :=
  andThen (forEach firstNibbleLane (storeSlice matched) 0) fun _ => pure none

def firstMatchingLane (matched : Vector Bool w.lanes) : Exec (Option ℕ) := do
  if Target.arch = .aarch64 ∧ level.asNeon then
    match w, matched with
    | .w16, matched =>
      let bits := aarch64MatchNibbles (maskBytes matched)
      return if bits ≠ 0#64 then some (trailingZeros bits / 4) else none
    | .w32, matched => firstNibbleBlock matched
    | .w64, matched => firstNibbleBlock matched
  else
    let bits := toBitmask matched
    return if bits ≠ 0#64 then some (trailingZeros bits) else none

def lastMatchingLane (matched : Vector Bool w.lanes) : Exec (Option ℕ) := do
  if Target.arch = .aarch64 ∧ level.asNeon then
    andThen (forEach lastNibbleLane (storeSlice matched).reverse (w.lanes / 16)) fun _ => pure none
  else
    let bits := toBitmask matched
    if bits = 0#64 then return none
    let top ← Exec.sub 63 (leadingZeros bits)
    return some top

end Definitions

/-- Four neighbouring bits repeat one lane. -/
theorem getLsbD_matchNibbles (lanes : Vector Bool 16) (k : ℕ) :
    (aarch64MatchNibbles (maskBytes lanes)).getLsbD k = true ↔ k / 4 ∈ trueLanes lanes := by
  have hmask (b : Bool) (j : ℕ) (hj : j < 8) : (if b then 0xFF#8 else 0#8 : U8)[j] = b := by
    have hones : ∀ j < 8, (0xFF#8).getLsbD j = true := by decide
    cases b
    · simp
    · simpa [hj] using hones j hj
  rcases Nat.lt_or_ge k 64 with hk | hk
  · rw [getLsbD_eq_byteAt, aarch64MatchNibbles, byteAt_fromLeBytes _ (by decide) (by omega),
      Vector.getElem_map, Vector.getElem_ofFn, BitVec.getLsbD_setWidth, BitVec.getLsbD_ushiftRight,
      getLsbD_eq_byteAt, byteAt_fromLeBytes _ (by decide) (by omega), mem_trueLanes]
    have hbound : k / 4 < 16 := by omega
    rcases Nat.lt_or_ge (k % 8) 4 with hlow | hhigh
    · have hbyte : (4 + k % 8) / 8 = 0 := by omega
      have hlane : 2 * (k / 8) = k / 4 := by omega
      simp only [hbyte]
      simp [lowLane, maskBytes, hmask, Nat.mod_lt, hlane, hbound]
    · have hbyte : (4 + k % 8) / 8 = 1 := by omega
      have hlane : 2 * (k / 8) + 1 = k / 4 := by omega
      simp only [hbyte]
      simp [highLane, maskBytes, hmask, Nat.mod_lt, hlane, hbound]
  · rw [BitVec.getLsbD_of_ge _ _ hk]
    simp only [Bool.false_eq_true, false_iff]
    intro h
    have := lt_of_mem_trueLanes h
    omega

theorem marksLanes_matchNibbles (lanes : Vector Bool 16) :
    MarksLanes 4 (aarch64MatchNibbles (maskBytes lanes)) (trueLanes lanes) := by
  ext i
  constructor
  · intro h
    obtain ⟨k, hk, rfl⟩ := h
    exact (getLsbD_matchNibbles lanes k).mp hk
  · intro hi
    refine ⟨4 * i, (getLsbD_matchNibbles lanes _).mpr ?_, by simp⟩
    rwa [Nat.mul_div_cancel_left i (by decide)]

theorem trueLanes_eq_matchSet {n : ℕ} (m : Vector Bool n) : trueLanes m = matchSet id m.toList := by
  ext i
  simp [trueLanes, matchSet]

section Blocks

variable {n off : ℕ} {m : Vector Bool n} {lanes : Vector Bool 16}

/-- The word of one block has the lanes of the mask in that block. -/
theorem marksLanes_block (h : ChunkAt m.toList off lanes) :
    MarksLanes 4 (aarch64MatchNibbles (maskBytes lanes)) (window (trueLanes m) off 16) := by
  rw [trueLanes_eq_matchSet, window_matchSet h, Vector.map_id]
  exact marksLanes_matchNibbles lanes

theorem firstNibbleBlock_spec (hn : n % 16 = 0) (m : Vector Bool n) :
    Returns (firstNibbleBlock m) (LeastIn (trueLanes m)) := by
  have hend : 0 + (asChunks 16 m.toList).1.length * 16 = n := by
    rw [asChunks_length, Vector.length_toList]
    omega
  rw [firstNibbleBlock, storeSlice, forEach_map, returns_andThen]
  refine returns_flow_mono (returns_forEach_tiles (tiles_asChunks m.toList)
    (fun a i => a = i * 16 ∧ ClearBelow (trueLanes m) a) _ ⟨rfl, clearBelow_zero⟩ ?_)
    ?_
  · intro t lanes i _ hlanes h
    obtain ⟨rfl, hclear⟩ := h
    have hmarks := marksLanes_block hlanes
    simp only [firstNibbleLane, returns_ite, returns_pure, flow_sat_ret, flow_sat_next, ne_eq,
      not_not, Nat.succ_mul, true_and]
    exact ⟨fun hne => least_of_window hclear (hmarks.isLeast hne),
      fun hzero => clearBelow_of_window hclear (hmarks.eq_empty_iff.mpr hzero)⟩
  · intro i hs
    obtain ⟨-, hclear⟩ := hs
    rw [hend] at hclear
    exact (returns_pure _ _).mpr (empty_of_clear hclear fun o ho => lt_of_mem_trueLanes ho)

end Blocks

theorem leastIn_of_marks {r : ℕ} {x : U64} {L : Set ℕ} (h : MarksLanes r x L) :
    LeastIn L (if x ≠ 0#64 then some (trailingZeros x / r) else none) := by
  split_ifs with hx
  · exact h.isLeast hx
  · exact h.eq_empty_iff.mpr (not_not.mp hx)

variable [Target] (level : Level) {w : Width}

/-- Both paths find the first lane. -/
theorem firstMatchingLane_spec (m : Vector Bool w.lanes) :
    Returns (firstMatchingLane level m) (LeastIn (trueLanes m)) := by
  simp only [firstMatchingLane, returns_ite]
  constructor
  · intro _
    cases w with
    | w16 => exact (returns_pure _ _).mpr (leastIn_of_marks (marksLanes_matchNibbles m))
    | w32 => exact firstNibbleBlock_spec (by decide) m
    | w64 => exact firstNibbleBlock_spec (by decide) m
  · intro _
    have hbits := bitSet_toBitmask (m := m) (by cases w <;> decide)
    have h := leastIn_of_marks (marksLanes_bits hbits)
    rwa [Nat.div_one, ← returns_pure (Q := LeastIn (trueLanes m))] at h

theorem lastMatchingLane_spec (m : Vector Bool w.lanes) :
    Returns (lastMatchingLane level m) (GreatestIn (trueLanes m)) := by
  have hend : 0 + (asChunks 16 m.toList).1.length * 16 = w.lanes := by
    rw [asChunks_length, Vector.length_toList]
    rcases w.lanes_eq with h | h | h <;> omega
  simp only [lastMatchingLane, returns_ite, returns_andThen, returns_bind, returns_pure]
  refine ⟨fun _ => ?_, fun _ => ⟨fun hzero => ?_, fun hne => ?_⟩⟩
  · rw [storeSlice, ← List.map_reverse, forEach_map]
    refine returns_flow_mono (returns_forEach_tiles_rev (tiles_asChunks m.toList)
      (fun a left => a = left * 16 ∧ ClearFrom (trueLanes m) a) _
      ⟨by omega, fun o ho => by rw [hend]; exact lt_of_mem_trueLanes ho⟩ ?_)
      ?_
    · intro a lanes left _ hlanes hs
      obtain ⟨hleft, hclear⟩ := hs
      have hmarks := marksLanes_block hlanes
      have ha : a = (left - 1) * 16 := by omega
      simp only [lastNibbleLane, returns_ite, returns_bind, Exec.returns_sub, returns_pure,
        flow_sat_ret, flow_sat_next, ne_eq, not_not, ← ha, true_and]
      refine ⟨by omega, fun hne => ⟨?_, ?_⟩, fun hzero => ?_⟩
      · exact Nat.le_of_lt_succ (leadingZeros_lt hne)
      · exact greatest_of_window hclear (hmarks.isGreatest hne)
      · exact clearFrom_of_window hclear (hmarks.eq_empty_iff.mpr hzero)
    · intro left hq
      obtain ⟨-, hclear⟩ := hq
      exact empty_of_clear clearBelow_zero hclear
  · exact (toBitmask_eq_zero (by cases w <;> decide)).mp hzero
  · have hbits := bitSet_toBitmask (m := m) (by cases w <;> decide)
    rw [Exec.returns_sub]
    exact ⟨Nat.le_of_lt_succ (leadingZeros_lt hne), hbits ▸ isGreatest_leadingZeros hne⟩

variable {m : Vector Bool w.lanes} {r : Option ℕ}

theorem firstMatchingLane_eq (h : LeastIn (trueLanes m) r) : firstMatchingLane level m = .ok r := by
  obtain ⟨r', hrun, hleast⟩ := firstMatchingLane_spec level m
  rw [hrun, leastIn_unique hleast h]

theorem lastMatchingLane_eq (h : GreatestIn (trueLanes m) r) :
    lastMatchingLane level m = .ok r := by
  obtain ⟨r', hrun, hgreatest⟩ := lastMatchingLane_spec level m
  rw [hrun, greatestIn_unique hgreatest h]

omit [Target] in
/-- The four bits a lane of the NEON searches give what the bitmask gives: the first and the last of
the lanes that are true. -/
theorem neonLanes_agree {w : Width} (matched : Vector Bool w.lanes) :
    (∃ r, (∀ neon : Level, neon.asNeon = true →
        (let _ : Target := ⟨.aarch64, .little⟩; firstMatchingLane neon matched = .ok r)) ∧
      (∀ [Target] (level : Level), ¬(Target.arch = .aarch64 ∧ level.asNeon = true) →
        firstMatchingLane level matched = .ok r) ∧
      (∀ lane, r = some lane ↔ IsLeast {i | matched[i]? = some true} lane) ∧
      (r = none ↔ ∀ i, matched.get i = false)) ∧
    ∃ r, (∀ neon : Level, neon.asNeon = true →
        (let _ : Target := ⟨.aarch64, .little⟩; lastMatchingLane neon matched = .ok r)) ∧
      (∀ [Target] (level : Level), ¬(Target.arch = .aarch64 ∧ level.asNeon = true) →
        lastMatchingLane level matched = .ok r) ∧
      (∀ lane, r = some lane ↔ IsGreatest {i | matched[i]? = some true} lane) ∧
      (r = none ↔ ∀ i, matched.get i = false) := by
  obtain ⟨first, hfirst⟩ := exists_leastIn (trueLanes matched)
  obtain ⟨last, hlast⟩ := exists_greatestIn (b := w.lanes) fun o (ho : o ∈ trueLanes matched) =>
    lt_of_mem_trueLanes ho
  constructor
  · refine ⟨first, ?_, ?_, fun _ => hfirst.eq_some_iff, ?_⟩
    · intro neon _ _
      exact firstMatchingLane_eq neon hfirst
    · intro _ level _
      exact firstMatchingLane_eq level hfirst
    · rw [hfirst.eq_none_iff, trueLanes_eq_empty]
  · refine ⟨last, ?_, ?_, fun _ => hlast.eq_some_iff, ?_⟩
    · intro neon _ _
      exact lastMatchingLane_eq neon hlast
    · intro _ level _
      exact lastMatchingLane_eq level hlast
    · rw [hlast.eq_none_iff, trueLanes_eq_empty]

end MemchrN.Simd
