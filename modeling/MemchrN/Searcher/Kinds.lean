import MemchrN.Search.Batches
import MemchrN.Searcher.Select

namespace MemchrN

section Definitions

/-- The kind that names each field of the union. -/
def KernelStorage.kind : KernelStorage → KernelKind
  | swarAny1 _ => .oneByte
  | swarAny2 _ => .twoBytes
  | swarAny3 _ => .threeBytes
  | swarRange _ => .oneRange
  | swarNotByte _ => .notByte
  | vectorAny1 _ => .oneByte
  | vectorAny2 _ => .twoBytes
  | vectorAny3 _ => .threeBytes
  | vectorRange _ => .oneRange
  | vectorSmallSet _ => .smallSet
  | vectorFixedNibble _ => .fixedNibble
  | vectorNotByte _ => .notByte
  | bitset _ => .bitsetLookup
  | never => .never

variable (S : Set U8)

def IsRange : Prop := ∃ start last, S = {b | start ≤ b ∧ b ≤ last}

/-- All bytes share their low nibble, or all their high one. -/
def SharesNibble : Prop :=
  (∀ a ∈ S, ∀ b ∈ S, a &&& 0x0F#8 = b &&& 0x0F#8) ∨ ∀ a ∈ S, ∀ b ∈ S, a >>> 4 = b >>> 4

def nibbleRow (hi : Fin 16) : Set (Fin 16) := {lo | BitVec.ofNat 8 (16 * hi + lo) ∈ S}

def nibbleColumn (lo : Fin 16) : Set (Fin 16) := {hi | BitVec.ofNat 8 (16 * hi + lo) ∈ S}

/-- Eight groups are enough for the rows of the nibble matrix, or for its columns. -/
def FitsGroups : Prop :=
  (Set.range (nibbleRow S) \ {∅}).ncard ≤ maxGroups ∨
    (Set.range (nibbleColumn S) \ {∅}).ncard ≤ maxGroups

open Classical in
/-- The lookup that suits a set of any shape. -/
noncomputable def lookupKind (shuffles : Bool) : KernelKind :=
  if shuffles = true ∧ FitsGroups S then .smallSet else .bitsetLookup

open Classical in
/-- The kernel for the bytes of `S`, on an engine with or without a byte shuffle. -/
noncomputable def kindFor (shuffles : Bool) : KernelKind :=
  match S.ncard with
  | 0 => .never
  | 1 => .oneByte
  | 2 => .twoBytes
  | 3 => .threeBytes
  | _ =>
    if Sᶜ.ncard = 1 then .notByte
    else if IsRange S then .oneRange
    else if shuffles = true ∧ SharesNibble S then .fixedNibble
    else lookupKind S shuffles

/-- The engine that runs a kernel of this kind: the lookup needs a byte shuffle to run on vectors,
and nothing has to be run to find nothing. -/
def Engine.forKind [Target] (engine : Engine) : KernelKind → Engine
  | .never => .swar
  | .bitsetLookup => if engine.byteShuffleLevel.isSome then engine else .swar
  | _ => engine

end Definitions

section Sets

variable {S : Set U8}

/-- Bytes that share one nibble are told apart by the other. -/
theorem SharesNibble.ncard_le (h : SharesNibble S) : S.ncard ≤ 16 := by
  have hsixteen {f : U8 → ℕ} (hlt : ∀ b, f b < 16) (hinj : Set.InjOn f S) : S.ncard ≤ 16 := by
    have hle := Set.ncard_le_ncard_of_injOn f (t := Set.Iio 16) (fun b _ => hlt b) hinj
      (Set.finite_Iio 16)
    rwa [Set.ncard_Iio_nat] at hle
  rcases h with hlow | hhigh
  · apply hsixteen nibble_high_lt
    intro a ha b hb hab
    exact eq_of_nibbles (hlow a ha b hb) (BitVec.eq_of_toNat_eq hab)
  · apply hsixteen nibble_low_lt
    intro a ha b hb hab
    exact eq_of_nibbles (BitVec.eq_of_toNat_eq hab) (hhigh a ha b hb)

theorem ncard_add_ncard_compl_bytes (S : Set U8) : S.ncard + Sᶜ.ncard = 256 := by
  rw [Set.ncard_add_ncard_compl, Nat.card_congr BitVec.equivFin.toEquiv, Nat.card_fin]
  rfl

variable {set : ByteSet}

theorem ByteSet.isRange_iff (hne : set.members.Nonempty) : IsRange set.members ↔
    ∃ range : ByteRange, range.start ≤ range.last ∧
      ∀ b, set.contains b = true ↔ range.start ≤ b ∧ b ≤ range.last := by
  constructor
  · intro h
    obtain ⟨start, last, h⟩ := h
    obtain ⟨b, hb⟩ := hne
    rw [h] at hb
    exact ⟨⟨start, last⟩, BitVec.le_trans hb.1 hb.2, fun b => Set.ext_iff.mp h b⟩
  · intro h
    obtain ⟨range, -, h⟩ := h
    exact ⟨range.start, range.last, Set.ext h⟩

theorem ByteSet.compl_ncard_iff :
    set.membersᶜ.ncard = 1 ↔ ∃ byte, ∀ b, set.contains b = true ↔ b ≠ byte := by
  rw [Set.ncard_eq_one]
  apply exists_congr
  intro byte
  rw [compl_eq_comm, eq_comm, Set.ext_iff]
  rfl

theorem extractNibbleLookups_isSome (set : ByteSet) :
    Returns (extractNibbleLookups set) fun r => r.isSome = true ↔ FitsGroups set.members := by
  apply returns_mono (extractNibbleLookups_spec set)
  intro r h
  obtain ⟨⟨columns, htranspose, hsome⟩, -⟩ := h
  have hrow (hi lo : Fin 16) :
      lo ∈ nibbleRow set.members hi ↔ cell set.nibbleRows hi lo = true := by
    rw [cell_nibbleRows_contains]
    rfl
  have hcolumn (lo hi : Fin 16) :
      hi ∈ nibbleColumn set.members lo ↔ cell columns lo hi = true := by
    rw [htranspose, cell_nibbleRows_contains]
    rfl
  rw [hsome, FitsGroups, ncard_distinctMasks hrow, ncard_distinctMasks hcolumn]

end Sets

/-- The plan is of this kind, and stores its kernel in a field of the kind. -/
structure Searcher.Planned [Target] (searcher : Searcher) (engine : Engine) (kind : KernelKind) :
    Prop where
  kernelKind : searcher.search.kernelKind = kind
  storage : searcher.search.kernelStorage.kind = kind
  engine_eq : searcher.search.engine = engine.forKind kind
  paced : searcher.search.Paced

namespace Searcher

variable [Target] {engine : Engine} {set : ByteSet}

theorem ofNever_planned : Planned ofNever engine .never :=
  ⟨rfl, rfl, rfl, SearchPlan.never_paced⟩

theorem ofNeedles_planned {N : ℕ} [StoredKernel (Swar.AnyOf N)] [StoredKernel (Simd.AnyOf N)]
    (needles : Vector U8 N) {kind : KernelKind} (hengine : engine.forKind kind = engine)
    (hswar : ∀ kernel : Swar.AnyOf N,
      StoredKernel.kind (Swar.AnyOf N) = kind ∧ (StoredKernel.into kernel).kind = kind)
    (hvector : ∀ kernel : Simd.AnyOf N,
      StoredKernel.kind (Simd.AnyOf N) = kind ∧ (StoredKernel.into kernel).kind = kind) :
    Planned (ofNeedles engine needles) engine kind := by
  cases engine with
  | vector level =>
    obtain ⟨hkind, hstored⟩ := hvector (Simd.AnyOf.new needles)
    exact ⟨hkind, hstored, hengine.symm, SearchPlan.vector_paced (Simd.anyOf_lawful level needles)⟩
  | swar =>
    obtain ⟨hkind, hstored⟩ := hswar (Swar.AnyOf.new needles)
    exact ⟨hkind, hstored, hengine.symm, SearchPlan.swar_paced (Swar.anyOf_lawful needles)⟩

theorem ofNotByte_planned (byte : U8) : Planned (ofNotByte engine byte) engine .notByte := by
  cases engine with
  | vector level =>
    exact ⟨rfl, rfl, rfl, SearchPlan.vector_paced (Simd.notByte_lawful level byte)⟩
  | swar => exact ⟨rfl, rfl, rfl, SearchPlan.swar_paced (Swar.notByte_lawful byte)⟩

theorem ofRange_planned (range : ByteRange) : Planned (ofRange engine range) engine .oneRange := by
  cases engine with
  | vector level =>
    exact ⟨rfl, rfl, rfl, SearchPlan.vector_paced (Simd.oneRange_lawful level range)⟩
  | swar => exact ⟨rfl, rfl, rfl, SearchPlan.swar_paced (Swar.oneRange_lawful range)⟩

/-- The table kernel is there exactly when the engine shuffles bytes and the items share a nibble. -/
theorem ofFixedNibbleSet_planned (engine : Engine) {items : List U8} (hne : items ≠ []) :
    ((ofFixedNibbleSet engine items).isSome = true ↔
      engine.byteShuffleLevel.isSome = true ∧ SharesNibble {b | b ∈ items}) ∧
    ∀ searcher, ofFixedNibbleSet engine items = some searcher →
      Planned searcher engine .fixedNibble := by
  have htable := (extractFixedNibbleTable_spec items).1
  rw [and_iff_right hne] at htable
  rw [ofFixedNibbleSet]
  cases hlevel : engine.byteShuffleLevel with
  | none => simp
  | some level =>
    obtain ⟨rfl, -⟩ := Engine.byteShuffleLevel_eq_some.mp hlevel
    cases hextract : extractFixedNibbleTable items with
    | none =>
      rw [hextract] at htable
      simpa [SharesNibble] using htable
    | some table =>
      rw [hextract] at htable
      constructor
      · simpa [SharesNibble] using htable
      · intro searcher h
        obtain rfl := Option.some.inj h
        exact ⟨rfl, rfl, rfl, SearchPlan.vector_paced (Simd.fixedNibbleSet_lawful level _)⟩

theorem ofSmallSet_planned (engine : Engine) (set : ByteSet) :
    Returns (ofSmallSet engine set) fun r =>
      (r.isSome = true ↔ engine.byteShuffleLevel.isSome = true ∧ FitsGroups set.members) ∧
      ∀ searcher, r = some searcher → Planned searcher engine .smallSet := by
  rw [ofSmallSet]
  cases hlevel : engine.byteShuffleLevel with
  | none => exact (returns_pure _ _).mpr (by simp)
  | some level =>
    obtain ⟨rfl, -⟩ := Engine.byteShuffleLevel_eq_some.mp hlevel
    rw [returns_bind]
    apply returns_mono (extractNibbleLookups_isSome set)
    intro lookups h
    cases lookups with
    | none => exact (returns_pure _ _).mpr (by simpa using h)
    | some lookups =>
      refine (returns_pure _ _).mpr ⟨by simpa using h, ?_⟩
      intro searcher hs
      obtain rfl := Option.some.inj hs
      exact ⟨rfl, rfl, rfl, SearchPlan.vector_paced (Simd.smallSet_lawful level _)⟩

theorem ofBitsetLookup_planned : Planned (ofBitsetLookup engine set) engine .bitsetLookup := by
  rw [ofBitsetLookup]
  cases hlevel : engine.byteShuffleLevel with
  | none =>
    refine ⟨rfl, rfl, ?_, SearchPlan.swar_paced (Swar.bitsetLookup_lawful _)⟩
    simp [Engine.forKind, hlevel, SearchPlan.swar]
  | some level =>
    refine ⟨rfl, rfl, ?_, SearchPlan.vector_paced (Simd.bitsetLookup_lawful level _)⟩
    obtain ⟨rfl, -⟩ := Engine.byteShuffleLevel_eq_some.mp hlevel
    simp [Engine.forKind, hlevel, SearchPlan.vector]

end Searcher

section Table

variable {S : Set U8} {shuffles : Bool}

theorem kindFor_notByte (hcompl : Sᶜ.ncard = 1) : kindFor S shuffles = .notByte := by
  have hcard : S.ncard = 255 := by
    have := ncard_add_ncard_compl_bytes S
    omega
  rw [kindFor, hcard]
  exact if_pos hcompl

variable (hmany : 3 < S.ncard)

include hmany

theorem kindFor_range (hcompl : Sᶜ.ncard ≠ 1) (hrange : IsRange S) :
    kindFor S shuffles = .oneRange := by
  rw [kindFor]
  split <;> first | omega | rw [if_neg hcompl, if_pos hrange]

theorem kindFor_fixedNibble (hcompl : Sᶜ.ncard ≠ 1) (hrange : ¬IsRange S)
    (hfixed : shuffles = true ∧ SharesNibble S) : kindFor S shuffles = .fixedNibble := by
  rw [kindFor]
  split <;> first | omega | rw [if_neg hcompl, if_neg hrange, if_pos hfixed]

theorem kindFor_lookup (hcompl : Sᶜ.ncard ≠ 1) (hrange : ¬IsRange S)
    (hfixed : ¬(shuffles = true ∧ SharesNibble S)) : kindFor S shuffles = lookupKind S shuffles := by
  rw [kindFor]
  split <;> first | omega | rw [if_neg hcompl, if_neg hrange, if_neg hfixed]

end Table

section Selection

open Searcher

variable [Target] {engine : Engine} {set : ByteSet}

theorem Searcher.ofLookup_planned (engine : Engine) (set : ByteSet) :
    Returns (ofLookup engine set) fun searcher =>
      Planned searcher engine (lookupKind set.members engine.byteShuffleLevel.isSome) := by
  simp only [ofLookup, returns_bind, returns_pure]
  apply returns_mono (ofSmallSet_planned engine set)
  intro r h
  obtain ⟨hsome, hplanned⟩ := h
  cases r with
  | none =>
    rw [lookupKind, if_neg fun h => Bool.false_ne_true (hsome.mpr h)]
    exact ofBitsetLookup_planned
  | some searcher =>
    rw [lookupKind, if_pos (hsome.mp rfl)]
    exact hplanned searcher rfl

/-- From four members on, they fit a range or a table, or else a lookup. -/
theorem Searcher.ofNamedMembers_planned (engine : Engine) {start second third fourth : U8}
    {rest : List U8} (hmembers : set.memberList = start :: second :: third :: fourth :: rest)
    (hfew : set.memberList.length ≤ membersMax) :
    Returns (ofMembers engine set (start :: second :: third :: fourth :: rest)) fun searcher =>
      Planned searcher engine (kindFor set.members engine.byteShuffleLevel.isSome) := by
  have hcard := set.length_memberList
  have hmany : 3 < set.members.ncard := by simp [← hcard, hmembers]
  have hcompl : set.membersᶜ.ncard ≠ 1 := by
    have := ncard_add_ncard_compl_bytes set.members
    have : set.memberList.length ≤ 16 := hfew
    omega
  have hmem : start ∈ set.memberList := by simp [hmembers]
  have hne : set.members.Nonempty := ⟨start, (set.mem_memberList start).mp hmem⟩
  have hset : {b | b ∈ set.memberList} = set.members := Set.ext set.mem_memberList
  have hspan := ByteSet.memberList_span_iff hmembers
  rw [← ByteSet.isRange_iff hne, hmembers] at hspan
  obtain ⟨hle, -⟩ := ByteSet.memberList_span hmembers
  obtain ⟨htable, hfixed⟩ := ofFixedNibbleSet_planned engine (List.ne_nil_of_mem hmem)
  rw [hset] at htable
  simp only [ofMembers, returns_bind, Exec.returns_subWord, returns_ite, returns_pure]
  refine ⟨hle, ?_, ?_⟩
  · intro hcount
    rw [kindFor_range hmany hcompl (hspan.mp hcount)]
    exact ofRange_planned _
  · intro hcount
    have hrange := mt hspan.mpr hcount
    rw [hmembers] at htable hfixed
    cases hitems : ofFixedNibbleSet engine (start :: second :: third :: fourth :: rest) with
    | some searcher =>
      rw [kindFor_fixedNibble hmany hcompl hrange (htable.mp (by rw [hitems]; rfl))]
      exact (returns_pure _ _).mpr (hfixed searcher hitems)
    | none =>
      rw [kindFor_lookup hmany hcompl hrange fun h => by simpa [hitems] using htable.mpr h]
      exact ofLookup_planned engine set

/-- Up to three members name their kernel by their number. -/
theorem Searcher.ofMembers_planned (engine : Engine) (hfew : set.memberList.length ≤ membersMax) :
    Returns (ofMembers engine set set.memberList) fun searcher =>
      Planned searcher engine (kindFor set.members engine.byteShuffleLevel.isSome) := by
  have hcard := set.length_memberList
  match hmembers : set.memberList with
  | [] =>
    rw [hmembers] at hcard
    rw [kindFor, ← hcard]
    exact (returns_pure _ _).mpr ofNever_planned
  | [first] =>
    rw [hmembers] at hcard
    rw [kindFor, ← hcard]
    exact (returns_pure _ _).mpr (ofNeedles_planned _ rfl (fun _ => ⟨rfl, rfl⟩) fun _ => ⟨rfl, rfl⟩)
  | [first, second] =>
    rw [hmembers] at hcard
    rw [kindFor, ← hcard]
    exact (returns_pure _ _).mpr (ofNeedles_planned _ rfl (fun _ => ⟨rfl, rfl⟩) fun _ => ⟨rfl, rfl⟩)
  | [first, second, third] =>
    rw [hmembers] at hcard
    rw [kindFor, ← hcard]
    exact (returns_pure _ _).mpr (ofNeedles_planned _ rfl (fun _ => ⟨rfl, rfl⟩) fun _ => ⟨rfl, rfl⟩)
  | start :: second :: third :: fourth :: rest =>
    exact ofNamedMembers_planned engine hmembers hfew

/-- More than sixteen members share no nibble. -/
theorem Searcher.ofManyMembers_planned (engine : Engine) (hmany : membersMax < set.members.ncard) :
    Returns (ofManyMembers engine set) fun searcher =>
      Planned searcher engine (kindFor set.members engine.byteShuffleLevel.isSome) := by
  have hthree : 3 < set.members.ncard := lt_trans (by decide) hmany
  have hne : set.members.Nonempty := Set.nonempty_of_ncard_ne_zero (by omega)
  rw [ofManyMembers, returns_bind]
  apply returns_mono set.excludedByte_spec
  intro excluded hexcluded
  cases excluded with
  | some byte =>
    rw [kindFor_notByte (ByteSet.compl_ncard_iff.mpr ⟨byte, (hexcluded byte).mp rfl⟩)]
    exact (returns_pure _ _).mpr (ofNotByte_planned byte)
  | none =>
    have hcompl : set.membersᶜ.ncard ≠ 1 := by
      intro h
      obtain ⟨byte, hbyte⟩ := ByteSet.compl_ncard_iff.mp h
      simpa using (hexcluded byte).mpr hbyte
    refine (returns_bind _ _ _).mpr (returns_mono set.asContiguousRange_spec ?_)
    intro r hr
    cases r with
    | some range =>
      rw [kindFor_range hthree hcompl ((ByteSet.isRange_iff hne).mpr ⟨range, (hr range).mp rfl⟩)]
      exact (returns_pure _ _).mpr (ofRange_planned range)
    | none =>
      have hrange : ¬IsRange set.members := by
        intro h
        obtain ⟨range, hrange⟩ := (ByteSet.isRange_iff hne).mp h
        simpa using (hr range).mpr hrange
      rw [kindFor_lookup hthree hcompl hrange fun h => absurd h.2.ncard_le (not_le.mpr hmany)]
      exact ofLookup_planned engine set

variable [Host]

theorem Searcher.fromByteSetWithBackend_planned (set : ByteSet) (backend : Backend) :
    Returns (fromByteSetWithBackend set backend) fun searcher =>
      Planned searcher backend.engine
        (kindFor set.members backend.engine.byteShuffleLevel.isSome) := by
  rw [fromByteSetWithBackend_eq]
  split_ifs with hfew
  · exact ofMembers_planned _ hfew
  · rw [ByteSet.length_memberList, not_le] at hfew
    exact ofManyMembers_planned _ hfew

/-- The kind of kernel is determined by the bytes and by whether the backend asked for shuffles bytes.
It runs on the engine asked for, or on the scalar one where nothing has to be run or a lookup has no
shuffle, and is stored in a field of its kind. -/
theorem Searcher.plan_is_determined (set : ByteSet) (backend : Backend) : ∃ searcher,
    fromByteSetWithBackend set backend = .ok searcher ∧
      searcher.search.kernelKind =
        kindFor set.members backend.engine.byteShuffleLevel.isSome ∧
      searcher.search.engine = backend.engine.forKind searcher.search.kernelKind ∧
      searcher.search.kernelStorage.kind = searcher.search.kernelKind := by
  obtain ⟨searcher, hrun, hplanned⟩ := fromByteSetWithBackend_planned set backend
  obtain ⟨hkind, hstorage, hengine, -⟩ := hplanned
  refine ⟨searcher, hrun, hkind, ?_, ?_⟩
  · rw [hkind, hengine]
  · rw [hkind, hstorage]

end Selection

end MemchrN
