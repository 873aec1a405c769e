import MemchrN.Bitset.Classify

namespace MemchrN

/-- The kernel both engines share: membership read off the table. -/
structure BitsetLookup where
  byteSet : ByteSet
  deriving DecidableEq

def BitsetLookup.contains (k : BitsetLookup) (byte : U8) : Bool := k.byteSet.contains byte

/-- Bit `j` of entry `k`. -/
def cell {w n : ℕ} (v : Vector (BitVec w) n) (k j : ℕ) : Bool := (v[k]?.getD 0).getLsbD j

/-- `v[k] |= 1 << j`. -/
def setCell {w n : ℕ} (v : Vector (BitVec w) n) (k j : ℕ) : Exec (Vector (BitVec w) n) := do
  let mark ← Exec.shl 1#w j
  Exec.updateIndex v k (· ||| mark)

/-- A set of groups, one bit each, for every nibble. -/
structure NibbleLookup where
  table : Vector U8 16
  deriving DecidableEq

namespace NibbleLookup

def empty : NibbleLookup := ⟨Vector.replicate 16 0⟩

def set (lookup : NibbleLookup) (nibble bit : U8) : Exec NibbleLookup := do
  Exec.debugAssert (decide (nibble.toNat < 16))
  Exec.debugAssert (decide (bit.toNat < 8))
  let table ← setCell lookup.table nibble.toNat bit.toNat
  return ⟨table⟩

end NibbleLookup

inductive FixedNibble | low | high
  deriving DecidableEq, Repr

/-- The member stored for each value of the nibble that varies. -/
structure FixedNibbleTable where
  fixedNibble : FixedNibble
  table : Vector U8 16
  deriving DecidableEq

abbrev maxGroups : ℕ := 8

/-- What `group_nibbles_by_mask` has built after some of the key nibbles. -/
structure GroupState where
  keyLookup : NibbleLookup
  memberLookup : NibbleLookup
  groupMasks : Vector U16 maxGroups
  groupCount : ℕ

/-- `while remaining_member_mask != 0 { member_lookup.set(..); .. }`. -/
def setMembers (memberMask : U16) (groupIndex : U8) (memberLookup : NibbleLookup) :
    Exec NibbleLookup :=
  andThen
    (forSetBits memberMask (fun member lookup => do
      let lookup ← lookup.set (BitVec.ofNat 8 member) groupIndex
      return .next lookup) memberLookup)
    pure

def groupStep (memberMasks : Vector U16 16) (keyNibble : Fin 16) (g : GroupState) :
    Exec (Flow (Option (NibbleLookup × NibbleLookup)) GroupState) := do
  let memberMask := memberMasks.get keyNibble
  if memberMask = 0#16 then return .next g
  let seen ← Exec.sliceTo g.groupMasks.toList g.groupCount
  match seen.findIdx? (· == memberMask) with
  | some idx =>
    let keyLookup ← g.keyLookup.set (BitVec.ofNat 8 keyNibble) (BitVec.ofNat 8 idx)
    return .next { g with keyLookup := keyLookup }
  | none =>
    if g.groupCount = maxGroups then return .ret none
    let groupIndex := BitVec.ofNat 8 g.groupCount
    let groupMasks ← Exec.setIndex g.groupMasks g.groupCount memberMask
    let memberLookup ← setMembers memberMask groupIndex g.memberLookup
    let keyLookup ← g.keyLookup.set (BitVec.ofNat 8 keyNibble) groupIndex
    return .next ⟨keyLookup, memberLookup, groupMasks, g.groupCount + 1⟩

/-- Key and member lookups that share a bit exactly where a mask contains the member; `none` when
more than eight masks are distinct and nonempty. -/
def groupNibblesByMask (memberMasks : Vector U16 16) :
    Exec (Option (NibbleLookup × NibbleLookup)) :=
  andThen
    (forEach (groupStep memberMasks) (List.finRange 16)
      ⟨.empty, .empty, Vector.replicate maxGroups 0, 0⟩)
    fun g => pure (some (g.keyLookup, g.memberLookup))

/-- The transposed matrix. -/
def columnsOf (rows : Vector U16 16) : Exec (Vector U16 16) :=
  andThen
    (forEach (fun (hi : Fin 16) columns => forSetBits (rows.get hi) (fun lo columns => do
      let columns ← setCell columns lo hi
      return .next columns) columns) (List.finRange 16) (Vector.replicate 16 0))
    pure

def extractNibbleLookups (byteSet : ByteSet) : Exec (Option (NibbleLookup × NibbleLookup)) := do
  let rows := byteSet.nibbleRows
  if let some (hiLookup, loLookup) ← groupNibblesByMask rows then
    return some (loLookup, hiLookup)
  let columns ← columnsOf rows
  groupNibblesByMask columns

theorem nibble_low_lt (byte : U8) : (byte &&& 0x0F#8).toNat < 16 := by
  rw [show (0x0F#8) = BitVec.ofNat 8 (2 ^ 4 - 1) from rfl, BitVec.toNat_and]
  exact Nat.lt_of_le_of_lt Nat.and_le_right (by decide)

theorem nibble_high_lt (byte : U8) : (byte >>> 4).toNat < 16 := by
  have := byte.isLt
  rw [BitVec.toNat_ushiftRight, Nat.shiftRight_eq_div_pow]
  omega

/-- `lo_lookup[byte & 0x0F] & hi_lookup[byte >> 4] != 0`. -/
def sharesGroup (loLookup hiLookup : NibbleLookup) (byte : U8) : Bool :=
  have := nibble_low_lt byte
  have := nibble_high_lt byte
  let lo := loLookup.table[(byte &&& 0x0F#8).toNat]
  let hi := hiLookup.table[(byte >>> 4).toNat]
  lo &&& hi != 0#8

/-- `table[variable_nibble] == byte`. -/
def FixedNibbleTable.holds (t : FixedNibbleTable) (byte : U8) : Bool :=
  have := nibble_low_lt byte
  have := nibble_high_lt byte
  match t.fixedNibble with
  | .low => t.table[(byte >>> 4).toNat] == byte
  | .high => t.table[(byte &&& 0x0F#8).toNat] == byte

/-- The nibble that picks the slot. -/
def FixedNibbleTable.variableNibble (t : FixedNibbleTable) (byte : U8) : U8 :=
  match t.fixedNibble with
  | .low => byte >>> 4
  | .high => byte &&& 0x0F#8

/-- Empty slots must not name a byte routed to them: zero does except in slot zero. -/
def fixedNibbleTable (slot : U8 → ℕ) (hslot : ∀ byte, slot byte < 16) (sentinel : U8)
    (items : List U8) : Vector U8 16 :=
  items.foldl (fun table item => table.set (slot item) item (hslot item))
    ((Vector.replicate 16 0).set 0 sentinel)

def extractFixedNibbleTable (items : List U8) : Option FixedNibbleTable := do
  let first ← items.head?
  let loConstant := items.all fun item => item &&& 0x0F#8 == first &&& 0x0F#8
  let hiConstant := items.all fun item => item >>> 4 == first >>> 4
  if loConstant then
    some ⟨.low, fixedNibbleTable (fun b => (b >>> 4).toNat) nibble_high_lt 0x10 items⟩
  else if hiConstant then
    some ⟨.high, fixedNibbleTable (fun b => (b &&& 0x0F#8).toNat) nibble_low_lt 0x01 items⟩
  else none

section Cells

variable {w n k j : ℕ} {v : Vector (BitVec w) n}

theorem cell_eq (hk : k < n) : cell v k j = (v[k]).getLsbD j := by simp [cell, hk]

@[simp] theorem cell_replicate_zero : cell (Vector.replicate n 0#w) k j = false := by
  simp only [cell, Vector.getElem?_replicate]
  split_ifs <;> simp

theorem setCell_spec (hk : k < n) (hj : j < w) :
    Returns (setCell v k j) fun v' => ∀ k' j',
      cell v' k' j' = true ↔ cell v k' j' = true ∨ k' = k ∧ j' = j := by
  have hmark (j' : ℕ) : (1#w <<< j).getLsbD j' = true ↔ j' = j := by
    rw [BitVec.getLsbD_shiftLeft, BitVec.getLsbD_one]
    grind
  simp only [setCell, returns_bind, Exec.returns_shl, Exec.updateIndex, dif_pos hk, returns_pure]
  refine ⟨hj, fun k' j' => ?_⟩
  simp only [cell, Vector.getElem?_set]
  by_cases he : k = k'
  · subst he
    rw [if_pos rfl, Option.getD_some, BitVec.getLsbD_or, Bool.or_eq_true, hmark]
    simp [hk]
  · simp [he, Ne.symm he]

theorem and_ne_zero_iff {a b : BitVec w} :
    a &&& b ≠ 0#w ↔ ∃ j, a.getLsbD j = true ∧ b.getLsbD j = true := by
  rw [Ne, BitVec.zero_iff_eq_false, not_forall]
  simp

/-- Marking column `c` of the rows named by the set bits of `x`. -/
theorem returns_forSetBits_mark {ρ σ : Type} (mark : σ → ℕ → ℕ → Prop) {x : BitVec w} {c : ℕ}
    {body : ℕ → σ → Exec (Flow ρ σ)} (P : ρ → Prop) (hbody : ∀ k < w, ∀ s,
      Returns (body k s) (Flow.Sat P fun s' => ∀ m j, mark s' m j ↔ mark s m j ∨ m = k ∧ j = c))
    (s : σ) :
    Returns (forSetBits x body s) (Flow.Sat P fun s' =>
      ∀ m j, mark s' m j ↔ mark s m j ∨ x.getLsbD m = true ∧ j = c) := by
  rw [forSetBits_eq_forEach]
  have h : Returns (forEach body (setBits x) s) (Flow.Sat P fun s' =>
      ∀ m j, mark s' m j ↔ mark s m j ∨ m ∈ (setBits x).take (setBits x).length ∧ j = c) := by
    refine returns_forEach
      (fun i s' => ∀ m j, mark s' m j ↔ mark s m j ∨ m ∈ (setBits x).take i ∧ j = c) P (by simp)
      fun i hi t ht => ?_
    have hlt : (setBits x)[i] < w := BitVec.lt_of_getLsbD (mem_setBits.mp (List.getElem_mem hi))
    apply returns_flow_mono (hbody _ hlt t)
    intro s' hs m j
    rw [hs, ht, List.take_succ_eq_append_getElem hi, List.mem_append, List.mem_singleton]
    tauto
  simpa only [List.take_length, mem_setBits] using h

end Cells

namespace NibbleLookup

variable {lookup : NibbleLookup} {nibble bit : U8}

/-- `set` succeeds on a nibble and a group below eight, and adds that one mark. -/
theorem set_spec (hn : nibble.toNat < 16) (hb : bit.toNat < 8) :
    Returns (lookup.set nibble bit) fun lookup' => ∀ k j, cell lookup'.table k j = true ↔
      cell lookup.table k j = true ∨ k = nibble.toNat ∧ j = bit.toNat := by
  simp only [set, returns_bind, Exec.returns_debugAssert, returns_pure, decide_eq_true_eq]
  exact ⟨hn, hb, setCell_spec hn hb⟩

end NibbleLookup

/-- The masks that have a group, in the order their groups were opened. -/
def GroupState.groups (g : GroupState) : List U16 := g.groupMasks.toList.take g.groupCount

/-- After `i` keys: one group for each distinct nonempty mask seen, every key marked with its own
mask's group, and every member with the groups whose mask contains it. -/
structure GroupInv (memberMasks : Vector U16 16) (i : ℕ) (g : GroupState) : Prop where
  count_le : g.groupCount ≤ maxGroups
  distinct : g.groups.Nodup
  mem : ∀ mask, mask ∈ g.groups ↔ mask ≠ 0#16 ∧ ∃ k < i, memberMasks[k]? = some mask
  key : ∀ k j, cell g.keyLookup.table k j = true ↔
    k < i ∧ ∃ mask, memberMasks[k]? = some mask ∧ g.groups[j]? = some mask
  member : ∀ m j, cell g.memberLookup.table m j = true ↔
    ∃ mask, g.groups[j]? = some mask ∧ mask.getLsbD m = true

variable {memberMasks : Vector U16 16}

theorem GroupState.groups_length {g : GroupState} (h : g.groupCount ≤ maxGroups) :
    g.groups.length = g.groupCount := by
  rw [groups, List.length_take, Vector.length_toList]
  omega

theorem GroupState.groups_set (g : GroupState) (keyLookup memberLookup : NibbleLookup) (mask : U16)
    (hroom : g.groupCount < maxGroups) :
    GroupState.groups
      ⟨keyLookup, memberLookup, g.groupMasks.set g.groupCount mask hroom, g.groupCount + 1⟩ =
        g.groups ++ [mask] := by
  rw [GroupState.groups, GroupState.groups, List.take_succ_eq_append_getElem (by simpa)]
  simp [Vector.toList_set, List.take_set_of_le]

theorem getElem?_append_last {α : Type} {l : List α} {a x : α} {j : ℕ} :
    (l ++ [a])[j]? = some x ↔ l[j]? = some x ∨ j = l.length ∧ x = a := by
  rw [List.getElem?_append]
  split_ifs with hj
  · simp [show j ≠ l.length by omega]
  · have hnone : l[j]? = none := List.getElem?_eq_none (by omega)
    rw [hnone, List.getElem?_singleton]
    by_cases he : j = l.length
    · simp [he, eq_comm]
    · simp [he, show j - l.length ≠ 0 by omega]

theorem toNat_ofNat_lt {n : ℕ} (h : n < 256) : (BitVec.ofNat 8 n).toNat = n := by
  rw [BitVec.toNat_ofNat]
  exact Nat.mod_eq_of_lt h

theorem setMembers_spec (memberMask : U16) {groupIndex : U8} (memberLookup : NibbleLookup)
    (hg : groupIndex.toNat < 8) :
    Returns (setMembers memberMask groupIndex memberLookup) fun lookup => ∀ m j,
      cell lookup.table m j = true ↔ cell memberLookup.table m j = true ∨
        memberMask.getLsbD m = true ∧ j = groupIndex.toNat := by
  rw [setMembers, returns_andThen]
  simp only [returns_pure]
  refine returns_forSetBits_mark (fun (l : NibbleLookup) m j => cell l.table m j = true) _
    (fun m hm lookup => ?_) memberLookup
  have hnat := toNat_ofNat_lt (n := m) (by omega)
  simp only [returns_bind, returns_pure, flow_sat_next]
  apply returns_mono (NibbleLookup.set_spec (by omega) hg)
  intro lookup' h
  rwa [hnat] at h

section Step

variable {i : ℕ} {g : GroupState} {mask : U16} {keyLookup memberLookup : NibbleLookup}

/-- A key without members. -/
theorem GroupInv.skip (hinv : GroupInv memberMasks i g) (hmask : memberMasks[i]? = some 0#16) :
    GroupInv memberMasks (i + 1) g := by
  have hzero : 0#16 ∉ g.groups := fun h => ((hinv.mem _).mp h).1 rfl
  refine ⟨hinv.count_le, hinv.distinct, fun mask => ?_, fun k j => ?_, hinv.member⟩
  · rw [hinv.mem, Nat.exists_lt_succ_right, hmask, Option.some.injEq]
    refine and_congr_right fun hne => ⟨Or.inl, fun h => h.resolve_right (Ne.symm hne)⟩
  · rw [hinv.key, Nat.lt_succ_iff_lt_or_eq]
    refine and_congr_left fun hgroup => ⟨Or.inl, fun h => h.resolve_right ?_⟩
    intro hk
    obtain ⟨mask, hmask', hj⟩ := hgroup
    rw [hk, hmask, Option.some.injEq] at hmask'
    exact hzero (hmask' ▸ List.mem_of_getElem? hj)

/-- A key whose mask has the group `idx`, possibly opened for it. -/
theorem key_marked (hkey : ∀ k j, cell g.keyLookup.table k j = true ↔
      k < i ∧ ∃ mask, memberMasks[k]? = some mask ∧ g.groups[j]? = some mask)
    {groups : List U16} (hgroups : ∀ (k j : ℕ) (mask : U16), k < i → memberMasks[k]? = some mask →
      (groups[j]? = some mask ↔ g.groups[j]? = some mask))
    (hmask : memberMasks[i]? = some mask) {idx : ℕ}
    (hidx : ∀ j, groups[j]? = some mask ↔ j = idx)
    (hset : ∀ k j, cell keyLookup.table k j = true ↔ cell g.keyLookup.table k j = true ∨ k = i ∧ j = idx)
    (k j : ℕ) : cell keyLookup.table k j = true ↔
      k < i + 1 ∧ ∃ mask, memberMasks[k]? = some mask ∧ groups[j]? = some mask := by
  rw [hset, hkey, Nat.lt_succ_iff_lt_or_eq, or_and_right]
  refine or_congr (and_congr_right fun hk => ?_) (and_congr_right ?_)
  · exact exists_congr fun mask => and_congr_right fun h => (hgroups k j mask hk h).symm
  · intro he
    subst he
    simp only [hmask, Option.some.injEq, exists_eq_left', hidx]

theorem GroupInv.join {idx : ℕ} (hinv : GroupInv memberMasks i g)
    (hmask : memberMasks[i]? = some mask) (hidx : g.groups[idx]? = some mask)
    (hset : ∀ k j, cell keyLookup.table k j = true ↔ cell g.keyLookup.table k j = true ∨ k = i ∧ j = idx) :
    GroupInv memberMasks (i + 1) { g with keyLookup := keyLookup } := by
  refine ⟨hinv.count_le, hinv.distinct, fun x => ?_, ?_, hinv.member⟩
  · refine (hinv.mem x).trans (and_congr_right fun _ => ?_)
    rw [Nat.exists_lt_succ_right, hmask, Option.some.injEq]
    refine ⟨Or.inl, fun h => h.elim id ?_⟩
    intro heq
    subst heq
    exact ((hinv.mem _).mp (List.mem_of_getElem? hidx)).2
  · refine key_marked hinv.key (fun _ _ _ _ _ => Iff.rfl) hmask (fun j => ?_) hset
    constructor
    · intro hj
      obtain ⟨hlt, he⟩ := List.getElem?_eq_some_iff.mp hj
      obtain ⟨hlt', he'⟩ := List.getElem?_eq_some_iff.mp hidx
      exact (hinv.distinct.getElem_inj_iff).mp (he.trans he'.symm)
    · intro hsame
      subst hsame
      exact hidx

/-- A key that opens a group of its own. -/
theorem GroupInv.open (hinv : GroupInv memberMasks i g) (hmask : memberMasks[i]? = some mask)
    (hne : mask ≠ 0#16) (hnew : mask ∉ g.groups) (hroom : g.groupCount < maxGroups)
    (hmember : ∀ m j, cell memberLookup.table m j = true ↔
      cell g.memberLookup.table m j = true ∨ mask.getLsbD m = true ∧ j = g.groupCount)
    (hset : ∀ k j, cell keyLookup.table k j = true ↔
      cell g.keyLookup.table k j = true ∨ k = i ∧ j = g.groupCount) :
    GroupInv memberMasks (i + 1)
      ⟨keyLookup, memberLookup, g.groupMasks.set g.groupCount mask hroom, g.groupCount + 1⟩ := by
  have hlen := g.groups_length hinv.count_le
  have hgroups := g.groups_set keyLookup memberLookup mask hroom
  have hlast (j : ℕ) (x : U16) : (g.groups ++ [mask])[j]? = some x ↔
      g.groups[j]? = some x ∨ j = g.groupCount ∧ x = mask := by
    rw [getElem?_append_last, hlen]
  refine ⟨hroom, ?_, fun x => ?_, ?_, fun m j => ?_⟩ <;> rw [hgroups]
  · refine List.nodup_append.mpr ⟨hinv.distinct, List.nodup_singleton _, fun a ha b hb => ?_⟩
    rw [List.mem_singleton.mp hb]
    exact ne_of_mem_of_not_mem ha hnew
  · rw [List.mem_append, List.mem_singleton, hinv.mem, Nat.exists_lt_succ_right, hmask, Option.some.injEq]
    constructor
    · intro hs
      rcases hs with ⟨h, hk⟩ | rfl
      · exact ⟨h, .inl hk⟩
      · exact ⟨hne, .inr rfl⟩
    · intro hq
      obtain ⟨h, hk | rfl⟩ := hq
      · exact .inl ⟨h, hk⟩
      · exact .inr rfl
  · refine key_marked hinv.key (fun k j x hk hx => ?_) hmask (fun j => ?_) hset
    · have hx' : x ≠ mask := fun h => hnew (h ▸ (hinv.mem x).mpr ⟨h ▸ hne, k, hk, hx⟩)
      simp [hlast, hx']
    · have hold : g.groups[j]? ≠ some mask := fun h => hnew (List.mem_of_getElem? h)
      simp [hlast, hold]
  · rw [hmember, hinv.member]
    simp only [hlast, or_and_right, exists_or]
    refine or_congr_right ⟨fun h => ⟨mask, ⟨h.2, rfl⟩, h.1⟩, ?_⟩
    intro hd
    obtain ⟨x, ⟨hj, rfl⟩, h⟩ := hd
    exact ⟨h, hj⟩

end Step

/-- The distinct nonempty masks, one group each. -/
def distinctMasks (memberMasks : Vector U16 16) : Set U16 :=
  {mask | mask ≠ 0#16 ∧ mask ∈ memberMasks.toList}

theorem distinctMasks_finite (memberMasks : Vector U16 16) : (distinctMasks memberMasks).Finite :=
  memberMasks.toList.finite_toSet.subset fun _ h => h.2

theorem length_le_distinctMasks (memberMasks : Vector U16 16) {masks : List U16}
    (hnodup : masks.Nodup) (hsub : ∀ mask ∈ masks, mask ∈ distinctMasks memberMasks) :
    masks.length ≤ (distinctMasks memberMasks).ncard := by
  rw [← List.toFinset_card_of_nodup hnodup, ← Set.ncard_coe_finset]
  exact Set.ncard_le_ncard (fun mask h => hsub mask (by simpa using h)) (distinctMasks_finite _)

theorem GroupInv.sub_distinct {i : ℕ} {g : GroupState} (hinv : GroupInv memberMasks i g) :
    ∀ mask ∈ g.groups, mask ∈ distinctMasks memberMasks := fun mask h => by
  obtain ⟨hne, k, -, hk⟩ := (hinv.mem mask).mp h
  exact ⟨hne, Vector.mem_toList_iff.mpr (Vector.mem_of_getElem? hk)⟩

/-- A key that finds all groups taken by other masks. -/
theorem GroupInv.full {i : ℕ} {g : GroupState} {mask : U16} (hinv : GroupInv memberMasks i g)
    (hmask : memberMasks[i]? = some mask) (hne : mask ≠ 0#16) (hnew : mask ∉ g.groups)
    (hfull : g.groupCount = maxGroups) : maxGroups < (distinctMasks memberMasks).ncard := by
  have hmem : mask ∈ distinctMasks memberMasks :=
    ⟨hne, Vector.mem_toList_iff.mpr (Vector.mem_of_getElem? hmask)⟩
  have h := length_le_distinctMasks memberMasks (List.nodup_cons.mpr ⟨hnew, hinv.distinct⟩)
    (List.forall_mem_cons.mpr ⟨hmem, hinv.sub_distinct⟩)
  rw [List.length_cons, g.groups_length hinv.count_le, hfull] at h
  exact h

theorem groupStep_spec (keyNibble : Fin 16) (g : GroupState)
    (hinv : GroupInv memberMasks keyNibble g) :
    Returns (groupStep memberMasks keyNibble g) (Flow.Sat
      (fun r => r = none ∧ maxGroups < (distinctMasks memberMasks).ncard)
      (GroupInv memberMasks (keyNibble + 1))) := by
  have hlen := g.groups_length hinv.count_le
  have hcount : g.groupCount ≤ 8 := hinv.count_le
  have hmask : memberMasks[keyNibble.val]? = some (memberMasks.get keyNibble) := by
    simp [Vector.get_eq_getElem]
  have hkey : (BitVec.ofNat 8 keyNibble.val).toNat = keyNibble := toNat_ofNat_lt (by omega)
  simp only [groupStep, returns_bind, returns_ite, returns_pure, flow_sat_next,
    Exec.returns_sliceTo, Vector.length_toList]
  refine ⟨fun hzero => hinv.skip (hzero ▸ hmask), fun hne => ⟨hcount, ?_⟩⟩
  rw [← GroupState.groups]
  cases hfind : g.groups.findIdx? (· == memberMasks.get keyNibble) with
  | some idx =>
    obtain ⟨hidx, he, -⟩ := List.findIdx?_eq_some_iff_getElem.mp hfind
    have hbit : (BitVec.ofNat 8 idx).toNat = idx := toNat_ofNat_lt (by omega)
    simp only [returns_bind, returns_pure, flow_sat_next]
    apply returns_mono (NibbleLookup.set_spec (by omega) (by omega))
    intro keyLookup hset
    rw [hkey, hbit] at hset
    refine hinv.join hmask ?_ hset
    rw [List.getElem?_eq_getElem hidx, eq_of_beq he]
  | none =>
    have hnew : memberMasks.get keyNibble ∉ g.groups := fun h => by
      simpa using List.findIdx?_eq_none_iff.mp hfind _ h
    simp only [returns_bind, returns_ite, returns_pure, flow_sat_ret, flow_sat_next, true_and]
    constructor
    · exact hinv.full hmask hne hnew
    · intro hroom
      have hroom : g.groupCount < 8 := lt_of_le_of_ne hcount hroom
      have hbit : (BitVec.ofNat 8 g.groupCount).toNat = g.groupCount := toNat_ofNat_lt (by omega)
      simp only [Exec.setIndex, dif_pos hroom, returns_pure]
      apply returns_mono (setMembers_spec _ _ (by omega))
      intro memberLookup hmember
      apply returns_mono (NibbleLookup.set_spec (by omega) (by omega))
      intro keyLookup hset
      rw [hbit] at hmember
      rw [hkey, hbit] at hset
      exact hinv.open hmask hne hnew hroom hmember hset

theorem groupInv_init : GroupInv memberMasks 0
    ⟨.empty, .empty, Vector.replicate maxGroups 0, 0⟩ := by
  refine ⟨Nat.zero_le _, ?_, ?_, ?_, ?_⟩ <;> simp [GroupState.groups, NibbleLookup.empty]

/-- At the end the groups are the distinct nonempty masks. -/
theorem GroupInv.distinctMasks_eq {g : GroupState} (hinv : GroupInv memberMasks 16 g) :
    distinctMasks memberMasks = ↑g.groups.toFinset := by
  ext mask
  rw [Finset.mem_coe, List.mem_toFinset, hinv.mem]
  apply and_congr_right
  intro _
  rw [Vector.mem_toList_iff, Vector.mem_iff_getElem]
  simp only [Vector.getElem?_eq_some_iff]
  constructor
  · intro h
    obtain ⟨k, hk, hmask⟩ := h
    exact ⟨k, hk, hk, hmask⟩
  · intro h
    obtain ⟨k, hk, _, hmask⟩ := h
    exact ⟨k, hk, hmask⟩

/-- A key and a member share a group exactly when the key's mask contains the member. -/
theorem GroupInv.shares_iff {g : GroupState} (hinv : GroupInv memberMasks 16 g) {k : ℕ} (hk : k < 16)
    (m : ℕ) : (∃ j, cell g.keyLookup.table k j = true ∧ cell g.memberLookup.table m j = true) ↔
      memberMasks[k].getLsbD m = true := by
  have hmask : memberMasks[k]? = some memberMasks[k] := Vector.getElem?_eq_getElem hk
  simp only [hinv.key, hinv.member, hmask, Option.some.injEq, exists_eq_left']
  constructor
  · intro h
    obtain ⟨j, ⟨-, hj⟩, mask, hj', hbit⟩ := h
    rw [hj, Option.some.injEq] at hj'
    rwa [hj']
  · intro h
    have hne : memberMasks[k] ≠ 0#16 := fun h0 => by simp [h0] at h
    obtain ⟨j, hj⟩ := List.mem_iff_getElem?.mp ((hinv.mem _).mpr ⟨hne, k, hk, hmask⟩)
    exact ⟨j, ⟨hk, hj⟩, _, hj, h⟩

/-- Answers exactly when eight groups are enough, and then a key and a member share a group bit
exactly when the key's mask contains the member. -/
theorem groupNibblesByMask_spec (memberMasks : Vector U16 16) :
    Returns (groupNibblesByMask memberMasks) fun r =>
      (r.isSome = true ↔ (distinctMasks memberMasks).ncard ≤ maxGroups) ∧
        ∀ keyLookup memberLookup, r = some (keyLookup, memberLookup) → ∀ k (hk : k < 16) m,
          (∃ j, cell keyLookup.table k j = true ∧ cell memberLookup.table m j = true) ↔
            memberMasks[k].getLsbD m = true := by
  rw [groupNibblesByMask, returns_andThen]
  apply returns_mono (returns_forEach_range (GroupInv memberMasks) _ groupInv_init groupStep_spec)
  intro flow h
  cases flow with
  | ret r =>
    obtain ⟨rfl, hmany⟩ := h
    simpa using hmany
  | next g =>
    have hinv : GroupInv memberMasks 16 g := h
    simp only [flow_sat_next, returns_pure, Option.isSome_some, true_iff, Option.some.injEq,
      Prod.mk.injEq]
    constructor
    · rw [hinv.distinctMasks_eq, Set.ncard_coe_finset]
      exact (List.toFinset_card_le _).trans ((g.groups_length hinv.count_le).trans_le hinv.count_le)
    · intro keyLookup memberLookup hg k hk m
      obtain ⟨rfl, rfl⟩ := hg
      exact hinv.shares_iff hk m

theorem columnsOf_spec (rows : Vector U16 16) :
    Returns (columnsOf rows) fun columns =>
      ∀ lo hi, cell columns lo hi = true ↔ cell rows hi lo = true := by
  rw [columnsOf, returns_andThen]
  refine returns_mono (returns_forEach_range (fun i (columns : Vector U16 16) =>
      ∀ lo hi, cell columns lo hi = true ↔ hi < i ∧ cell rows hi lo = true)
    (fun _ => False) (by simp) fun hi columns hinv => ?_) ?_
  · refine returns_mono (returns_forSetBits_mark (c := hi.val)
      (fun (v : Vector U16 16) lo hi => cell v lo hi = true) (fun _ => False)
      (fun lo hlo v => ?_) columns) ?_
    · simp only [returns_bind, returns_pure, flow_sat_next]
      exact setCell_spec hlo hi.isLt
    · intro f hf
      apply flow_sat_mono hf (fun _ => id)
      intro v hv lo k
      rw [hv, hinv, Nat.lt_succ_iff_lt_or_eq, or_and_right]
      refine or_congr_right ⟨?_, ?_⟩
      · intro hs
        obtain ⟨h, rfl⟩ := hs
        exact ⟨rfl, by rwa [cell_eq hi.isLt]⟩
      · intro hq
        obtain ⟨rfl, h⟩ := hq
        exact ⟨by rwa [cell_eq hi.isLt] at h, rfl⟩
  · intro hd h
    rcases hd with r | columns
    · exact h.elim
    · simp only [flow_sat_next, returns_pure] at h ⊢
      refine fun lo hi => (h lo hi).trans (and_iff_right_of_imp fun hcell => ?_)
      by_contra hge
      simp [cell, hge] at hcell

/-- The nibble matrix holds the membership of every byte at its two nibbles. -/
theorem cell_nibbleRows (set : ByteSet) {hi lo : ℕ} (hhi : hi < 16) (hlo : lo < 16) :
    cell set.nibbleRows hi lo = set.bit (16 * hi + lo) := by
  rw [cell_eq hhi, ByteSet.nibbleRows, Vector.getElem_ofFn, getLsbD_eq_byteAt,
    byteAt_fromLeBytes _ (by decide) (by omega), ByteSet.bit, dif_pos (by omega)]
  have hbit : (16 * hi + lo) % 8 = lo % 8 := by omega
  rcases Nat.lt_or_ge lo 8 with h | h
  · have hhalf : lo / 8 = 0 := by omega
    have hbyte : (16 * hi + lo) / 8 = hi * 2 := by omega
    simp only [hhalf, hbyte, hbit]
    rfl
  · have hhalf : lo / 8 = 1 := by omega
    have hbyte : (16 * hi + lo) / 8 = hi * 2 + 1 := by omega
    simp only [hhalf, hbyte, hbit]
    rfl

theorem nibble_low_toNat (byte : U8) : (byte &&& 0x0F#8).toNat = byte.toNat % 16 := by
  rw [BitVec.toNat_and]
  exact Nat.and_two_pow_sub_one_eq_mod byte.toNat 4

theorem nibble_high_toNat (byte : U8) : (byte >>> 4).toNat = byte.toNat / 16 := by
  rw [BitVec.toNat_ushiftRight, Nat.shiftRight_eq_div_pow]

theorem sharesGroup_iff (lo hi : NibbleLookup) (byte : U8) :
    sharesGroup lo hi byte = true ↔
      ∃ j, cell lo.table (byte.toNat % 16) j = true ∧ cell hi.table (byte.toNat / 16) j = true := by
  have hb := byte.isLt
  have hlow : byte.toNat % 16 < 16 := Nat.mod_lt _ (by decide)
  have hhigh : byte.toNat / 16 < 16 := by omega
  simp only [sharesGroup, bne_iff_ne, and_ne_zero_iff, nibble_low_toNat, nibble_high_toNat,
    cell_eq hlow, cell_eq hhigh]

/-- Exactness of the lookups: a byte's nibbles share a group exactly when it is a member. They are
found when the rows or else the columns of the nibble matrix need at most eight groups. -/
theorem extractNibbleLookups_spec (set : ByteSet) :
    Returns (extractNibbleLookups set) fun r =>
      (∃ columns, (∀ lo hi, cell columns lo hi = true ↔ cell set.nibbleRows hi lo = true) ∧
        (r.isSome = true ↔ (distinctMasks set.nibbleRows).ncard ≤ maxGroups ∨
          (distinctMasks columns).ncard ≤ maxGroups)) ∧
      ∀ lo hi, r = some (lo, hi) → ∀ byte, sharesGroup lo hi byte = set.contains byte := by
  have hmember (byte : U8) : cell set.nibbleRows (byte.toNat / 16) (byte.toNat % 16) =
      set.contains byte := by
    have hb := byte.isLt
    rw [cell_nibbleRows set (by omega) (by omega), ByteSet.contains_eq_bit, Nat.div_add_mod]
  obtain ⟨columns, hcolumns, htranspose⟩ := columnsOf_spec set.nibbleRows
  rw [extractNibbleLookups, returns_bind]
  apply returns_mono (groupNibblesByMask_spec set.nibbleRows)
  intro rows h
  obtain ⟨hsome, hrows⟩ := h
  cases rows with
  | some lookups =>
    obtain ⟨hiLookup, loLookup⟩ := lookups
    simp only [returns_pure, Option.isSome_some, true_iff, Option.some.injEq, Prod.mk.injEq]
    refine ⟨⟨columns, htranspose, .inl (hsome.mp rfl)⟩, ?_⟩
    intro t u hs byte
    obtain ⟨rfl, rfl⟩ := hs
    have hb := byte.isLt
    rw [← hmember, Bool.eq_iff_iff, sharesGroup_iff, cell_eq (by omega), ← hrows _ _ rfl]
    exact exists_congr fun j => and_comm
  | none =>
    have hmany : ¬(distinctMasks set.nibbleRows).ncard ≤ maxGroups := by simpa using hsome.not
    simp only [hcolumns]
    apply returns_mono (groupNibblesByMask_spec columns)
    intro r h
    obtain ⟨hsome', hcols⟩ := h
    refine ⟨⟨columns, htranspose, by rw [hsome']; simp [hmany]⟩, fun lo hi hr byte => ?_⟩
    have hb := byte.isLt
    rw [← hmember, Bool.eq_iff_iff, sharesGroup_iff, ← htranspose, cell_eq (by omega),
      ← hcols lo hi hr]

/-- The nibble matrix itself: the low nibbles that go with a high one, and the reverse. -/
def ByteSet.nibbleRow (set : ByteSet) (hi : Fin 16) : Set (Fin 16) :=
  {lo | set.contains (BitVec.ofNat 8 (16 * hi + lo)) = true}

def ByteSet.nibbleColumn (set : ByteSet) (lo : Fin 16) : Set (Fin 16) :=
  {hi | set.contains (BitVec.ofNat 8 (16 * hi + lo)) = true}

/-- The lines of a bit matrix are as many, distinct and nonempty, as their masks. -/
theorem ncard_distinctMasks {masks : Vector U16 16} {line : Fin 16 → Set (Fin 16)}
    (hline : ∀ k j : Fin 16, j ∈ line k ↔ cell masks k j = true) :
    (Set.range line \ {∅}).ncard = (distinctMasks masks).ncard := by
  let members (mask : U16) : Set (Fin 16) := {j | mask.getLsbD j = true}
  have hmembers (k : Fin 16) : line k = members (masks.get k) := by
    ext j
    rw [hline, cell_eq k.isLt]
    rfl
  have hinj : Function.Injective members := by
    intro a b hab
    apply BitVec.eq_of_getLsbD_eq
    intro j hj
    exact Bool.eq_iff_iff.mpr (Set.ext_iff.mp hab ⟨j, hj⟩)
  have hempty : members 0#16 = ∅ := by simp [members]
  have himage : Set.range line \ {∅} = members '' distinctMasks masks := by
    ext s
    constructor
    · intro h
      obtain ⟨⟨k, rfl⟩, hne⟩ := h
      rw [hmembers] at hne ⊢
      refine ⟨masks.get k, ⟨?_, ?_⟩, rfl⟩
      · intro hzero
        exact hne (hzero ▸ hempty)
      · simp [Vector.get_eq_getElem]
    · intro h
      obtain ⟨mask, ⟨hne, hmem⟩, rfl⟩ := h
      obtain ⟨k, hk, rfl⟩ := Vector.mem_iff_getElem.mp (Vector.mem_toList_iff.mp hmem)
      refine ⟨⟨⟨k, hk⟩, hmembers _⟩, ?_⟩
      intro hs
      exact hne (hinj (hs.trans hempty.symm))
  rw [himage, Set.ncard_image_of_injective _ hinj]

theorem cell_nibbleRows_contains (set : ByteSet) (hi lo : Fin 16) :
    cell set.nibbleRows hi lo = set.contains (BitVec.ofNat 8 (16 * hi + lo)) := by
  rw [cell_nibbleRows set hi.isLt lo.isLt, ByteSet.contains_eq_bit,
    toNat_ofNat_lt (by omega)]

theorem NibbleLookup.set_returns_iff (lookup : NibbleLookup) (nibble bit : U8) :
    (∃ lookup', lookup.set nibble bit = .ok lookup') ↔ nibble.toNat < 16 ∧ bit.toNat < 8 := by
  constructor
  · intro h
    obtain ⟨lookup', hrun⟩ := h
    have hset : Returns (lookup.set nibble bit) fun _ => True := ⟨lookup', hrun, trivial⟩
    simp only [set, returns_bind, Exec.returns_debugAssert, decide_eq_true_eq] at hset
    exact ⟨hset.1, hset.2.1⟩
  · intro h
    obtain ⟨lookup', hrun, -⟩ : Returns (lookup.set nibble bit) _ := set_spec h.1 h.2
    exact ⟨lookup', hrun⟩

/-- The lookups exist exactly when eight groups are enough for the rows or for the columns, and
then decide membership. A group of eight or more would be a fault. -/
theorem nibbleLookups_are_exact (set : ByteSet) :
    (∃ r, extractNibbleLookups set = .ok r ∧
      (r.isSome = true ↔ (Set.range set.nibbleRow \ {∅}).ncard ≤ 8 ∨
        (Set.range set.nibbleColumn \ {∅}).ncard ≤ 8) ∧
      ∀ lo hi, r = some (lo, hi) → ∀ byte,
        sharesGroup lo hi byte = true ↔ set.contains byte = true) ∧
    ∀ (lookup : NibbleLookup) (nibble bit : U8),
      (∃ lookup', lookup.set nibble bit = .ok lookup') ↔ nibble.toNat < 16 ∧ bit.toNat < 8 := by
  obtain ⟨r, hrun, hsome, hexact⟩ := extractNibbleLookups_spec set
  obtain ⟨columns, htranspose, hsome⟩ := hsome
  have hrow (hi lo : Fin 16) : lo ∈ set.nibbleRow hi ↔ cell set.nibbleRows hi lo = true := by
    rw [cell_nibbleRows_contains]
    rfl
  have hcolumn (lo hi : Fin 16) : hi ∈ set.nibbleColumn lo ↔ cell columns lo hi = true := by
    rw [htranspose, cell_nibbleRows_contains]
    rfl
  refine ⟨⟨r, hrun, ?_, ?_⟩, NibbleLookup.set_returns_iff⟩
  · rw [hsome, ncard_distinctMasks hrow, ncard_distinctMasks hcolumn]
  · intro lo hi hr byte
    rw [hexact lo hi hr]

section FixedNibble

variable (slot : U8 → ℕ) (hslot : ∀ byte, slot byte < 16) (sentinel : U8) (items : List U8)

/-- A slot holds the last item routed to it, or what it held before. -/
theorem foldl_set_slot (table : Vector U8 16) (k : ℕ) (hk : k < 16) :
    let filled := items.foldl (fun table item => table.set (slot item) item (hslot item)) table
    (filled[k] ∈ items ∧ slot filled[k] = k) ∨
      (filled[k] = table[k] ∧ ∀ item ∈ items, slot item ≠ k) := by
  induction items generalizing table with
  | nil => simp
  | cons item items ih =>
    rw [List.foldl_cons]
    rcases ih (table.set (slot item) item (hslot item)) with ⟨hmem, hs⟩ | ⟨he, hnone⟩
    · exact .inl ⟨List.mem_cons_of_mem _ hmem, hs⟩
    · by_cases hitem : slot item = k
      · subst hitem
        rw [Vector.getElem_set_self] at he
        exact .inl ⟨by rw [he]; exact List.mem_cons_self, by rw [he]⟩
      · rw [Vector.getElem_set_ne _ _ hitem] at he
        exact .inr ⟨he, by simpa using ⟨hitem, hnone⟩⟩

/-- The filling of an empty slot names a byte of another slot. -/
theorem fixedNibbleTable_empty (hzero : slot 0 = 0) (hsentinel : slot sentinel ≠ 0) (k : Fin 16)
    (hempty : ∀ item ∈ items, slot item ≠ k) :
    slot ((fixedNibbleTable slot hslot sentinel items).get k) ≠ k := by
  obtain ⟨k, hk⟩ := k
  rw [Vector.get_eq_getElem]
  rcases foldl_set_slot slot hslot items ((Vector.replicate 16 0).set 0 sentinel) k hk with
    ⟨hmem, -⟩ | ⟨he, -⟩
  · exact hempty _ hmem
  · rw [fixedNibbleTable, he]
    by_cases h0 : k = 0
    · subst h0
      exact hsentinel
    · rw [Vector.getElem_set_ne _ _ (Ne.symm h0), Vector.getElem_replicate, hzero]
      exact Ne.symm h0

/-- When the items are told apart by their slots, a byte is found in its slot exactly when it is
an item. -/
theorem fixedNibbleTable_holds (hinj : ∀ a ∈ items, ∀ b ∈ items, slot a = slot b → a = b)
    (hzero : slot 0 = 0) (hsentinel : slot sentinel ≠ 0) (byte : U8) :
    (fixedNibbleTable slot hslot sentinel items)[slot byte]? = some byte ↔ byte ∈ items := by
  have hlt := hslot byte
  rw [Vector.getElem?_eq_getElem hlt, Option.some.injEq]
  rcases foldl_set_slot slot hslot items ((Vector.replicate 16 0).set 0 sentinel) (slot byte) hlt
    with ⟨hmem, hs⟩ | ⟨-, hnone⟩
  · rw [fixedNibbleTable]
    constructor
    · intro h
      rwa [h] at hmem
    · intro h
      exact hinj _ hmem _ h hs
  · have hempty := fixedNibbleTable_empty slot hslot sentinel items hzero hsentinel
      ⟨slot byte, hlt⟩ hnone
    rw [Vector.get_eq_getElem] at hempty
    constructor
    · intro h
      exact absurd (congrArg slot h) hempty
    · intro h
      exact absurd rfl (hnone byte h)

end FixedNibble

theorem eq_of_nibbles {a b : U8} (hlow : a &&& 0x0F#8 = b &&& 0x0F#8) (hhigh : a >>> 4 = b >>> 4) :
    a = b := by
  have hl := congrArg BitVec.toNat hlow
  have hh := congrArg BitVec.toNat hhigh
  rw [nibble_low_toNat, nibble_low_toNat] at hl
  rw [nibble_high_toNat, nibble_high_toNat] at hh
  exact BitVec.eq_of_toNat_eq (by omega)

/-- A table is built exactly for nonempty lists sharing a nibble, and holds exactly its items. -/
theorem extractFixedNibbleTable_spec (items : List U8) :
    ((extractFixedNibbleTable items).isSome = true ↔ items ≠ [] ∧
      ((∀ a ∈ items, ∀ b ∈ items, a &&& 0x0F#8 = b &&& 0x0F#8) ∨
        ∀ a ∈ items, ∀ b ∈ items, a >>> 4 = b >>> 4)) ∧
    ∀ t, extractFixedNibbleTable items = some t → ∀ byte, t.holds byte = true ↔ byte ∈ items := by
  have hshared {f : U8 → U8} {first : U8} (hfirst : items.head? = some first) :
      (items.all fun item => f item == f first) = true ↔ ∀ a ∈ items, ∀ b ∈ items, f a = f b := by
    have hmem : first ∈ items := List.mem_of_head? hfirst
    simp only [List.all_eq_true, beq_iff_eq]
    exact ⟨fun h a ha b hb => (h a ha).trans (h b hb).symm, fun h a ha => h a ha first hmem⟩
  cases hfirst : items.head? with
  | none =>
    rw [List.head?_eq_none_iff] at hfirst
    simp [extractFixedNibbleTable, hfirst]
  | some first =>
    have hne : items ≠ [] := fun h => by simp [h] at hfirst
    have hlow := hshared (f := fun b => b &&& 0x0F#8) hfirst
    have hhigh := hshared (f := fun b => b >>> 4) hfirst
    simp only [extractFixedNibbleTable, hfirst, Option.bind_eq_bind, Option.bind_some]
    split_ifs with hlo hhi
    · have hconst := hlow.mp hlo
      refine ⟨by simpa [hne] using .inl hconst, ?_⟩
      intro u hq byte
      obtain ⟨⟩ := hq
      have h := fixedNibbleTable_holds (fun b => (b >>> 4).toNat) nibble_high_lt 0x10 items
        (fun a ha b hb hs => eq_of_nibbles (hconst a ha b hb) (BitVec.eq_of_toNat_eq hs))
        (by decide) (by decide) byte
      rw [← h, Vector.getElem?_eq_getElem (nibble_high_lt byte), Option.some.injEq,
        FixedNibbleTable.holds, beq_iff_eq]
    · have hconst := hhigh.mp hhi
      refine ⟨by simpa [hne] using .inr hconst, ?_⟩
      intro q hd byte
      obtain ⟨⟩ := hd
      have h := fixedNibbleTable_holds (fun b => (b &&& 0x0F#8).toNat) nibble_low_lt 0x01 items
        (fun a ha b hb hs => eq_of_nibbles (BitVec.eq_of_toNat_eq hs) (hconst a ha b hb))
        (by decide) (by decide) byte
      rw [← h, Vector.getElem?_eq_getElem (nibble_low_lt byte), Option.some.injEq,
        FixedNibbleTable.holds, beq_iff_eq]
    · refine ⟨?_, fun t h => absurd h (by simp)⟩
      simp only [Option.isSome_none, Bool.false_eq_true, false_iff, not_and, not_or]
      exact fun _ => ⟨fun h => hlo (hlow.mpr h), fun h => hhi (hhigh.mpr h)⟩

/-- A slot no item is routed to holds a byte that is not routed to it either. -/
theorem extractFixedNibbleTable_empty {items : List U8} {t : FixedNibbleTable}
    (htable : extractFixedNibbleTable items = some t) (slot : Fin 16)
    (hempty : ∀ item ∈ items, (t.variableNibble item).toNat ≠ slot) :
    (t.variableNibble (t.table.get slot)).toNat ≠ slot := by
  cases hfirst : items.head? with
  | none => simp [extractFixedNibbleTable, hfirst] at htable
  | some first =>
    simp only [extractFixedNibbleTable, hfirst, Option.bind_eq_bind, Option.bind_some] at htable
    split_ifs at htable with hlo hhi
    · cases htable
      exact fixedNibbleTable_empty (fun b => (b >>> 4).toNat) nibble_high_lt 0x10 items
        (by decide) (by decide) slot hempty
    · cases htable
      exact fixedNibbleTable_empty (fun b => (b &&& 0x0F#8).toNat) nibble_low_lt 0x01 items
        (by decide) (by decide) slot hempty

end MemchrN
