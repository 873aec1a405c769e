import MemchrN.Bitset.Debug
import MemchrN.Searcher.Drivers
import MemchrN.Searcher.FuzzTargets
import MemchrN.Searcher.Laws

namespace MemchrN

section Definitions

namespace SearchPlan

/-- `assert_operations`: every operation of the plan against the scalar scan, and on no input. -/
def assertOperations (plan : SearchPlan) (member : U8 → Bool) (haystack : List U8) :
    Exec Unit := do
  let expected ← scalarOffsets member haystack
  let first ← plan.firstMatch haystack
  Exec.assert (first == expected.head?)
  let total ← plan.countAll haystack
  Exec.assert (total == expected.length)
  let last ← plan.lastMatch haystack
  Exec.assert (last == expected.getLast?)
  let offsets ← plan.batchedOffsets haystack
  Exec.assert (offsets == expected)
  let first ← plan.firstMatch []
  Exec.assert (first == none)
  let last ← plan.lastMatch []
  Exec.assert (last == none)
  let total ← plan.countAll []
  Exec.assert (total == 0)
  let (bits, state) ← plan.nextMatchBatch { haystack := [], scanOffset := 0, matchBase := 0 }
  Exec.assert (bits == 0#128)
  Exec.assert (state.scanOffset == 0)

def assertPlan (plan : SearchPlan) (kind : KernelKind) (member : U8 → Bool) (haystack : List U8) :
    Exec Unit := do
  Exec.assert (decide (plan.kernelKind = kind))
  plan.assertOperations member haystack

def assertSwarPlan (plan : SearchPlan) (kind : KernelKind) (member : U8 → Bool)
    (haystack : List U8) : Exec Unit :=
  match plan.engine with
  | .swar => plan.assertPlan kind member haystack
  | .vector _ => throw .assertion

/-- The levels are compared by their texts. -/
def assertVectorPlan (plan : SearchPlan) (levelText : Level → Text) (level : Level)
    (kind : KernelKind) (member : U8 → Bool) (haystack : List U8) : Exec Unit :=
  match plan.engine with
  | .vector selected => do
    Exec.assert (levelText selected == levelText level)
    plan.assertPlan kind member haystack
  | .swar => throw .assertion

/-- A plan with its engine, its operations, and its kernel in a field of this kind. -/
structure Pairs (plan : SearchPlan) (engine : Engine) (ops : ScanOps) (kind : KernelKind) :
    Prop where
  engine_eq : plan.engine = engine
  scanOps_eq : plan.scanOps = ops
  kernelKind_eq : plan.kernelKind = kind
  storage_kind : plan.kernelStorage.kind = kind

end SearchPlan

/-- One item of `small_set_kernel`: its two nibbles meet in a group of their own. -/
def markItem {ρ : Type} (item : U8 × ℕ) (lookups : NibbleLookup × NibbleLookup) :
    Exec (Flow ρ (NibbleLookup × NibbleLookup)) := do
  let loLookup ← lookups.1.set (item.1 &&& 0x0F#8) (BitVec.ofNat 8 item.2)
  let hiLookup ← lookups.2.set (item.1 >>> 4) (BitVec.ofNat 8 item.2)
  return .next (loLookup, hiLookup)

def smallSetKernel (items : List U8) : Exec Simd.SmallSet :=
  andThen (forEach markItem items.zipIdx (.empty, .empty)) fun lookups =>
    pure ⟨lookups.1, lookups.2⟩

/-- The kernels that both engines store, by what they are made from. -/
inductive SharedKernel
  | any1 (needles : Vector U8 1)
  | any2 (needles : Vector U8 2)
  | any3 (needles : Vector U8 3)
  | oneRange (range : ByteRange) (hle : range.start ≤ range.last)
  | notByte (excluded : U8)
  | bitset (byteSet : ByteSet)

namespace SharedKernel

def kind : SharedKernel → KernelKind
  | any1 _ => .oneByte
  | any2 _ => .twoBytes
  | any3 _ => .threeBytes
  | oneRange _ _ => .oneRange
  | notByte _ => .notByte
  | bitset _ => .bitsetLookup

/-- The bytes it is to match, tested one by one. -/
def member : SharedKernel → U8 → Bool
  | any1 needles, byte => needles.toList.contains byte
  | any2 needles, byte => needles.toList.contains byte
  | any3 needles, byte => needles.toList.contains byte
  | oneRange range _, byte => decide (range.start ≤ byte ∧ byte ≤ range.last)
  | notByte excluded, byte => byte != excluded
  | bitset byteSet, byte => byteSet.contains byte

def swarPlan [Target] : SharedKernel → SearchPlan
  | any1 needles => .swar (Swar.AnyOf.new needles)
  | any2 needles => .swar (Swar.AnyOf.new needles)
  | any3 needles => .swar (Swar.AnyOf.new needles)
  | oneRange range _ => .swar (Swar.OneRange.new range)
  | notByte excluded => .swar (Swar.NotByte.new excluded)
  | bitset byteSet => .swar (BitsetLookup.mk byteSet)

def vectorPlan [Target] (level : Level) : SharedKernel → SearchPlan
  | any1 needles => .vector level (Simd.AnyOf.new needles)
  | any2 needles => .vector level (Simd.AnyOf.new needles)
  | any3 needles => .vector level (Simd.AnyOf.new needles)
  | oneRange range _ => .vector level (Simd.OneRange.new range)
  | notByte excluded => .vector level (Simd.NotByte.new excluded)
  | bitset byteSet => .vector level (BitsetLookup.mk byteSet)

/-- `swar::scan_ops` of the kernel's type. -/
def swarOps [Target] : SharedKernel → ScanOps
  | any1 _ => Swar.scanOps (Swar.AnyOf 1)
  | any2 _ => Swar.scanOps (Swar.AnyOf 2)
  | any3 _ => Swar.scanOps (Swar.AnyOf 3)
  | oneRange _ _ => Swar.scanOps Swar.OneRange
  | notByte _ => Swar.scanOps Swar.NotByte
  | bitset _ => Swar.scanOps BitsetLookup

/-- `vector::scan_ops` of the kernel's type. -/
def vectorOps [Target] (level : Level) : SharedKernel → ScanOps
  | any1 _ => Simd.scanOps level (Simd.AnyOf 1)
  | any2 _ => Simd.scanOps level (Simd.AnyOf 2)
  | any3 _ => Simd.scanOps level (Simd.AnyOf 3)
  | oneRange _ _ => Simd.scanOps level Simd.OneRange
  | notByte _ => Simd.scanOps level Simd.NotByte
  | bitset _ => Simd.scanOps level BitsetLookup

end SharedKernel

/-- The kernels that only vector engines store, made from the items they are to match. -/
inductive ShuffleKernel
  | smallSet (items : List U8) (hle : items.length ≤ maxGroups)
  | fixedNibble (items : List U8) (htable : (extractFixedNibbleTable items).isSome = true)

namespace ShuffleKernel

def kind : ShuffleKernel → KernelKind
  | smallSet _ _ => .smallSet
  | fixedNibble _ _ => .fixedNibble

def member : ShuffleKernel → U8 → Bool
  | smallSet items _, byte => items.contains byte
  | fixedNibble items _, byte => items.contains byte

def vectorPlan [Target] (level : Level) : ShuffleKernel → Exec SearchPlan
  | smallSet items _ => do
    let kernel ← smallSetKernel items
    return .vector level kernel
  | fixedNibble items _ => do
    let table ← Exec.unwrap (extractFixedNibbleTable items)
    return .vector level (Simd.FixedNibbleSet.mk table)

def vectorOps [Target] (level : Level) : ShuffleKernel → ScanOps
  | smallSet _ _ => Simd.scanOps level Simd.SmallSet
  | fixedNibble _ _ => Simd.scanOps level Simd.FixedNibbleSet

end ShuffleKernel

end Definitions

section Operations

variable {plan : SearchPlan} {p : U8 → Bool} (hplan : plan.Upholds p) (haystack : List U8)

include hplan

namespace SearchPlan

theorem firstMatch_eq : plan.firstMatch haystack = .ok (haystack.findIdxs p).head? := by
  obtain ⟨r, hr, hleast⟩ := firstMatch_spec hplan haystack
  rw [hr, leastIn_unique hleast (leastIn_findIdxs _ _)]

theorem lastMatch_eq : plan.lastMatch haystack = .ok (haystack.findIdxs p).getLast? := by
  obtain ⟨r, hr, hgreatest⟩ := lastMatch_spec hplan haystack
  rw [hr, greatestIn_unique hgreatest (greatestIn_findIdxs _ _)]

theorem countAll_eq : plan.countAll haystack = .ok (haystack.findIdxs p).length := by
  rw [returns_eq (countAll_spec hplan.countAll haystack), List.length_findIdxs]

/-- No input: the batch is empty and stays where it is. -/
theorem nextMatchBatch_nil :
    Returns (plan.nextMatchBatch { haystack := [], scanOffset := 0, matchBase := 0 }) fun r =>
      r.1 = 0#128 ∧ r.2.scanOffset = 0 := by
  apply returns_mono (nextMatchBatch_spec hplan.nextMatchBatch le_rfl)
  intro r hr
  have hend : r.2.scanOffset = 0 := Nat.le_zero.mp hr.offset_le
  refine ⟨?_, hend⟩
  apply BitVec.eq_of_getLsbD_eq
  intro k _
  rw [BitVec.getLsbD_zero, ← Bool.not_eq_true, hr.bits_iff]
  omega

/-- A plan that is exact passes every assertion, on any haystack. -/
theorem assertOperations_eq : plan.assertOperations p haystack = .ok () := by
  obtain ⟨r, hbatch, hbits, hoffset⟩ := nextMatchBatch_nil hplan
  apply returns_eq
  simp only [assertOperations, returns_bind, returns_ok, scalarOffsets_eq, firstMatch_eq hplan,
    lastMatch_eq hplan, countAll_eq hplan, batchedOffsets_eq hplan.nextMatchBatch, hbatch, hbits, hoffset,
    Exec.returns_assert, List.findIdxs_nil]
  simp

theorem assertPlan_eq {kind : KernelKind} (hkind : plan.kernelKind = kind) :
    plan.assertPlan kind p haystack = .ok () := by
  rw [assertPlan, hkind, assertOperations_eq hplan]
  simp [Exec.assert]

theorem assertSwarPlan_eq {ops : ScanOps} {kind : KernelKind} (h : plan.Pairs .swar ops kind) :
    plan.assertSwarPlan kind p haystack = .ok () := by
  rw [assertSwarPlan, h.engine_eq]
  exact assertPlan_eq hplan haystack h.kernelKind_eq

theorem assertVectorPlan_eq {level : Level} {ops : ScanOps} {kind : KernelKind}
    (h : plan.Pairs (.vector level) ops kind) (levelText : Level → Text) :
    plan.assertVectorPlan levelText level kind p haystack = .ok () := by
  rw [assertVectorPlan, h.engine_eq]
  simp only [assertPlan_eq hplan haystack h.kernelKind_eq, Exec.assert, beq_self_eq_true, if_true]
  rfl

end SearchPlan

end Operations

section SmallSet

/-- Row `k` of a lookup has the groups of the first items whose nibble is `k`. -/
def HoldsNibbles (nibble : U8 → U8) (items : List U8) (i : ℕ) (lookup : NibbleLookup) : Prop :=
  ∀ k j, cell lookup.table k j = true ↔ j < i ∧ ∃ item, items[j]? = some item ∧
    k = (nibble item).toNat

variable {nibble : U8 → U8} {items : List U8} {i : ℕ} {lookup : NibbleLookup}

theorem holdsNibbles_empty : HoldsNibbles nibble items 0 .empty := by
  intro k j
  simp [NibbleLookup.empty]

theorem HoldsNibbles.set (h : HoldsNibbles nibble items i lookup) (hi : i < items.length)
    (hle : i < maxGroups) (hnibble : (nibble items[i]).toNat < 16) :
    Returns (lookup.set (nibble items[i]) (BitVec.ofNat 8 i))
      (HoldsNibbles nibble items (i + 1)) := by
  have hbit : (BitVec.ofNat 8 i).toNat = i := toNat_ofNat_lt (hle.trans (by decide))
  apply returns_mono (NibbleLookup.set_spec hnibble (by rw [hbit]; exact hle))
  intro lookup' h' k j
  rw [h', hbit, h]
  constructor
  · rintro (⟨hj, hitem⟩ | ⟨rfl, rfl⟩)
    · exact ⟨by omega, hitem⟩
    · exact ⟨Nat.lt_succ_self _, _, List.getElem?_eq_getElem hi, rfl⟩
  · rintro ⟨hj, item, hitem, rfl⟩
    rcases Nat.lt_succ_iff_lt_or_eq.mp hj with hj | rfl
    · exact .inl ⟨hj, item, hitem, rfl⟩
    · rw [List.getElem?_eq_getElem hi, Option.some_inj] at hitem
      exact .inr ⟨by rw [hitem], rfl⟩

/-- The lookups of the first items, one group for each. -/
structure HoldsItems (items : List U8) (i : ℕ) (lookups : NibbleLookup × NibbleLookup) : Prop where
  low : HoldsNibbles (fun item => item &&& 0x0F#8) items i lookups.1
  high : HoldsNibbles (fun item => item >>> 4) items i lookups.2

theorem holdsItems_empty : HoldsItems items 0 (.empty, .empty) where
  low := holdsNibbles_empty
  high := holdsNibbles_empty

theorem HoldsItems.mark {lookups : NibbleLookup × NibbleLookup} {ρ : Type} (P : ρ → Prop)
    (h : HoldsItems items i lookups) (hi : i < items.length) (hle : i < maxGroups) :
    Returns (markItem (items[i], i) lookups) (Flow.Sat P (HoldsItems items (i + 1))) := by
  simp only [markItem, returns_bind, returns_pure, flow_sat_next]
  apply returns_mono (h.low.set hi hle (nibble_low_lt _))
  intro loLookup hlow
  apply returns_mono (h.high.set hi hle (nibble_high_lt _))
  intro hiLookup hhigh
  exact ⟨hlow, hhigh⟩

/-- Both nibbles of a byte meet in the group of an item only when the byte is that item. -/
theorem HoldsItems.sharesGroup {lookups : NibbleLookup × NibbleLookup}
    (h : HoldsItems items items.length lookups) (byte : U8) :
    sharesGroup lookups.1 lookups.2 byte = true ↔ byte ∈ items := by
  rw [List.mem_iff_getElem?, sharesGroup_iff]
  apply exists_congr
  intro j
  rw [h.low, h.high]
  constructor
  · rintro ⟨⟨-, item, hitem, hlow⟩, -, item', hitem', hhigh⟩
    obtain rfl : item = item' := Option.some_inj.mp (hitem.symm.trans hitem')
    rw [nibble_low_toNat] at hlow
    rw [nibble_high_toNat] at hhigh
    have hbyte : item = byte := BitVec.eq_of_toNat_eq (by omega)
    rw [hitem, hbyte]
  · intro hitem
    have hj : j < items.length := (List.getElem?_eq_some_iff.mp hitem).1
    exact ⟨⟨hj, byte, hitem, (nibble_low_toNat byte).symm⟩,
      hj, byte, hitem, (nibble_high_toNat byte).symm⟩

/-- Up to eight items of any shape: the kernel matches exactly them. -/
theorem smallSetKernel_spec (hle : items.length ≤ maxGroups) :
    Returns (smallSetKernel items) fun kernel =>
      ∀ byte, Simd.Kernel.matchesByte kernel byte = items.contains byte := by
  have hloop : Returns (forEach markItem items.zipIdx (.empty, .empty))
      (Flow.Sat (fun _ : Simd.SmallSet => False) (HoldsItems items items.zipIdx.length)) := by
    apply returns_forEach (HoldsItems items) _ holdsItems_empty
    intro i hi lookups h
    rw [List.length_zipIdx] at hi
    rw [List.getElem_zipIdx, Nat.zero_add]
    exact h.mark _ hi (hi.trans_le hle)
  rw [List.length_zipIdx] at hloop
  obtain ⟨lookups, hrun, hitems⟩ := returns_next hloop
  simp only [smallSetKernel, hrun, returns_andThen, returns_ok, flow_sat_next, returns_pure]
  intro byte
  rw [Bool.eq_iff_iff, List.contains_iff_mem]
  exact hitems.sharesGroup byte

end SmallSet

section Plans

variable [Target] {K : Type} [StoredKernel K] {kernel : K} {p : U8 → Bool}

theorem SearchPlan.swar_upholds_of [Swar.Kernel K] (hlaw : Swar.Lawful kernel)
    (hp : ∀ byte, Swar.Kernel.matchesByte kernel byte = p byte) : (swar kernel).Upholds p :=
  funext hp ▸ swar_upholds hlaw

theorem SearchPlan.vector_upholds_of [Simd.Kernel K] {level : Level}
    (hlaw : Simd.Lawful level kernel)
    (hp : ∀ byte, Simd.Kernel.matchesByte kernel byte = p byte) : (vector level kernel).Upholds p :=
  funext hp ▸ vector_upholds hlaw

namespace SharedKernel

theorem swarPlan_upholds (kernel : SharedKernel) : kernel.swarPlan.Upholds kernel.member := by
  cases kernel with
  | any1 needles | any2 needles | any3 needles =>
    apply SearchPlan.swar_upholds_of (Swar.anyOf_lawful needles)
    intro byte
    rw [Swar.anyOf_matchesByte, member, List.contains_eq_mem]
  | oneRange range hle =>
    apply SearchPlan.swar_upholds_of (Swar.oneRange_lawful range)
    intro byte
    rw [Bool.eq_iff_iff, Swar.oneRange_matchesByte_iff hle, member, decide_eq_true_eq]
  | notByte excluded =>
    exact SearchPlan.swar_upholds_of (Swar.notByte_lawful excluded)
      (Swar.notByte_matchesByte excluded)
  | bitset byteSet => exact SearchPlan.swar_upholds (Swar.bitsetLookup_lawful ⟨byteSet⟩)

theorem vectorPlan_upholds (kernel : SharedKernel) (level : Level) :
    (kernel.vectorPlan level).Upholds kernel.member := by
  cases kernel with
  | any1 needles | any2 needles | any3 needles =>
    apply SearchPlan.vector_upholds_of (Simd.anyOf_lawful level needles)
    intro byte
    rw [Simd.anyOf_matchesByte, member, List.contains_eq_mem]
  | oneRange range hle =>
    apply SearchPlan.vector_upholds_of (Simd.oneRange_lawful level range)
    intro byte
    rw [Simd.oneRange_matchesByte, member, decide_eq_decide, Swar.contiguous_iff hle]
  | notByte excluded =>
    exact SearchPlan.vector_upholds_of (Simd.notByte_lawful level excluded)
      (Simd.notByte_matchesByte excluded)
  | bitset byteSet => exact SearchPlan.vector_upholds (Simd.bitsetLookup_lawful level ⟨byteSet⟩)

theorem swarPlan_pairs (kernel : SharedKernel) :
    kernel.swarPlan.Pairs .swar kernel.swarOps kernel.kind := by
  cases kernel <;> exact ⟨rfl, rfl, rfl, rfl⟩

theorem vectorPlan_pairs (kernel : SharedKernel) (level : Level) :
    (kernel.vectorPlan level).Pairs (.vector level) (kernel.vectorOps level) kernel.kind := by
  cases kernel <;> exact ⟨rfl, rfl, rfl, rfl⟩

end SharedKernel

theorem ShuffleKernel.vectorPlan_spec (kernel : ShuffleKernel) (level : Level) :
    Returns (kernel.vectorPlan level) fun plan =>
      plan.Pairs (.vector level) (kernel.vectorOps level) kernel.kind ∧
        plan.Upholds kernel.member := by
  cases kernel with
  | smallSet items hle =>
    rw [vectorPlan, returns_bind]
    apply returns_mono (smallSetKernel_spec hle)
    intro kernel hkernel
    exact (returns_pure _ _).mpr ⟨⟨rfl, rfl, rfl, rfl⟩,
      SearchPlan.vector_upholds_of (Simd.smallSet_lawful level kernel) hkernel⟩
  | fixedNibble items htable =>
    obtain ⟨table, h⟩ := Option.isSome_iff_exists.mp htable
    rw [vectorPlan, h, returns_bind, Exec.returns_unwrap_some]
    refine (returns_pure _ _).mpr ⟨⟨rfl, rfl, rfl, rfl⟩, ?_⟩
    apply SearchPlan.vector_upholds_of (Simd.fixedNibbleSet_lawful level _)
    intro byte
    rw [Bool.eq_iff_iff, member, List.contains_iff_mem,
      ← (extractFixedNibbleTable_spec items).2 table h]
    rfl

/-- Every kernel the union stores, whatever it is made from, is paired with the engine, operations
and kind of its own, and its plans pass their assertions on every haystack; so does the plan that
never matches. The iterators of a kernel's two plans answer `next`, `nth`, `advance_to`, `count` and
`collect` alike. -/
theorem stored_kernels_are_paired :
    (∀ (kernel : SharedKernel) (level : Level),
      kernel.swarPlan.Pairs .swar kernel.swarOps kernel.kind ∧
      (kernel.vectorPlan level).Pairs (.vector level) (kernel.vectorOps level) kernel.kind ∧
      ∀ haystack,
        kernel.swarPlan.assertSwarPlan kernel.kind kernel.member haystack = .ok () ∧
        (∀ levelText, (kernel.vectorPlan level).assertVectorPlan levelText level kernel.kind
          kernel.member haystack = .ok ()) ∧
        Alike Iter.answer (Searcher.iter ⟨kernel.swarPlan⟩ haystack)
          (Searcher.iter ⟨kernel.vectorPlan level⟩ haystack)) ∧
    (∀ (kernel : ShuffleKernel) (level : Level), ∃ plan, kernel.vectorPlan level = .ok plan ∧
      plan.Pairs (.vector level) (kernel.vectorOps level) kernel.kind ∧
      ∀ haystack levelText,
        plan.assertVectorPlan levelText level kernel.kind kernel.member haystack = .ok ()) ∧
    SearchPlan.never.Pairs .swar neverScanOps .never ∧
      ∀ haystack, SearchPlan.never.assertSwarPlan .never (fun _ => false) haystack = .ok () := by
  refine ⟨?_, ?_, ⟨rfl, rfl, rfl, rfl⟩, ?_⟩
  · intro kernel level
    have hpairs := kernel.swarPlan_pairs
    have hpairs' := kernel.vectorPlan_pairs level
    refine ⟨hpairs, hpairs', ?_⟩
    intro haystack
    have hswar := kernel.swarPlan_upholds
    have hvector := kernel.vectorPlan_upholds level
    refine ⟨SearchPlan.assertSwarPlan_eq hswar haystack hpairs,
      SearchPlan.assertVectorPlan_eq hvector haystack hpairs', ?_⟩
    exact (Searcher.iter_holds hswar haystack).alike (Searcher.iter_holds hvector haystack)
  · intro kernel level
    obtain ⟨plan, hrun, hpairs, hplan⟩ := kernel.vectorPlan_spec level
    exact ⟨plan, hrun, hpairs, fun haystack => SearchPlan.assertVectorPlan_eq hplan haystack hpairs⟩
  · intro haystack
    exact SearchPlan.assertSwarPlan_eq SearchPlan.never_upholds haystack ⟨rfl, rfl, rfl, rfl⟩

end Plans

end MemchrN
