import MemchrN.Bitset.Build
import MemchrN.Bitset.Classify
import MemchrN.Search.Plan

namespace MemchrN

section Definitions

inductive Backend
  | auto
  | swar
  | level (level : Level)

/-- The running CPU: the level that `Level::new` detects. -/
class Host where
  detected : Level

/-- A level given by hand is run as vectors even when it is a fallback level. -/
def Backend.engine [Host] : Backend → Engine
  | auto => if Host.detected.isFallback then .swar else .vector Host.detected
  | swar => .swar
  | level l => .vector l

def Engine.byteShuffleLevel [Target] : Engine → Option Level
  | vector level => if hasByteShuffle level then some level else none
  | swar => none

inductive Bound
  | included (b : U8)
  | excluded (b : U8)
  | unbounded
  deriving DecidableEq, Repr

namespace Bound

/-- The first byte a start bound admits. -/
def first : Bound → Option U8
  | included start => some start
  | excluded start => if start.toNat + 1 < 256 then some (start + 1) else none
  | unbounded => some 0x00#8

/-- The last byte an end bound admits. -/
def last : Bound → Option U8
  | included last => some last
  | excluded last => if 1 ≤ last.toNat then some (last - 1) else none
  | unbounded => some 0xFF#8

def startAdmits : Bound → U8 → Bool
  | included start, byte => decide (start ≤ byte)
  | excluded start, byte => decide (start < byte)
  | unbounded, _ => true

def endAdmits : Bound → U8 → Bool
  | included last, byte => decide (byte ≤ last)
  | excluded last, byte => decide (byte < last)
  | unbounded, _ => true

end Bound

structure RangeBounds where
  startBound : Bound
  endBound : Bound
  deriving DecidableEq, Repr

def RangeBounds.contains (range : RangeBounds) (byte : U8) : Bool :=
  range.startBound.startAdmits byte && range.endBound.endAdmits byte

def inclusiveRange (range : RangeBounds) : Option ByteRange := do
  let start ← range.startBound.first
  let last ← range.endBound.last
  if start > last then none else some ⟨start, last⟩

namespace Searcher

variable [Target]

def ofNeedles {N : ℕ} [StoredKernel (Swar.AnyOf N)] [StoredKernel (Simd.AnyOf N)]
    (engine : Engine) (needles : Vector U8 N) : Searcher where
  search := match engine with
    | .vector level => .vector level (Simd.AnyOf.new needles)
    | .swar => .swar (Swar.AnyOf.new needles)

def ofNotByte (engine : Engine) (byte : U8) : Searcher where
  search := match engine with
    | .vector level => .vector level (Simd.NotByte.new byte)
    | .swar => .swar (Swar.NotByte.new byte)

def ofRange (engine : Engine) (range : ByteRange) : Searcher where
  search := match engine with
    | .vector level => .vector level (Simd.OneRange.new range)
    | .swar => .swar (Swar.OneRange.new range)

def ofSmallSet (engine : Engine) (byteSet : ByteSet) : Exec (Option Searcher) := do
  match engine.byteShuffleLevel with
  | none => return none
  | some level =>
    match ← extractNibbleLookups byteSet with
    | none => return none
    | some (loLookup, hiLookup) =>
      return some ⟨.vector level (Simd.SmallSet.mk loLookup hiLookup)⟩

def ofFixedNibbleSet (engine : Engine) (possibleSet : List U8) : Option Searcher := do
  let level ← engine.byteShuffleLevel
  let fixedNibbleTable ← extractFixedNibbleTable possibleSet
  return ⟨.vector level (Simd.FixedNibbleSet.mk fixedNibbleTable)⟩

def ofBitsetLookup (engine : Engine) (byteSet : ByteSet) : Searcher where
  search := match engine.byteShuffleLevel with
    | some level => .vector level (BitsetLookup.mk byteSet)
    | none => .swar (BitsetLookup.mk byteSet)

def ofNever : Searcher where
  search := .never

/-- `of_small_set(..).unwrap_or_else(|| of_bitset_lookup(..))`. -/
def ofLookup (engine : Engine) (set : ByteSet) : Exec Searcher := do
  let smallSet ← ofSmallSet engine set
  return smallSet.getD (ofBitsetLookup engine set)

abbrev membersMax : ℕ := 16

/-- More members than the named-member kernels take. -/
def ofManyMembers (engine : Engine) (set : ByteSet) : Exec Searcher := do
  if let some byte ← set.excludedByte then return ofNotByte engine byte
  if let some range ← set.asContiguousRange then return ofRange engine range
  ofLookup engine set

def ofMembers (engine : Engine) (set : ByteSet) (members : List U8) : Exec Searcher := do
  match members with
  | [] => return ofNever
  | [first] => return ofNeedles engine #v[first]
  | [first, second] => return ofNeedles engine #v[first, second]
  | [first, second, third] => return ofNeedles engine #v[first, second, third]
  | start :: rest =>
    let last := rest.getLastD start
    let span ← Exec.subWord last start
    if span.toNat + 1 = members.length then return ofRange engine ⟨start, last⟩
    match ofFixedNibbleSet engine members with
    | some searcher => return searcher
    | none => ofLookup engine set

variable [Host]

def fromByteSetWithBackend (set : ByteSet) (backend : Backend) : Exec Searcher := do
  let engine := backend.engine
  match ← set.writeMembers (Vector.replicate membersMax 0) with
  | (none, _) => ofManyMembers engine set
  | (some count, members) =>
    let members ← Exec.sliceTo members.toList count.toNat
    ofMembers engine set members

def fromByteSet (set : ByteSet) : Exec Searcher := fromByteSetWithBackend set .auto

def newWithBackend (bytes : List U8) (backend : Backend) : Exec Searcher :=
  fromByteSetWithBackend (.fromBytes bytes) backend

def new (bytes : List U8) : Exec Searcher := newWithBackend bytes .auto

def fromNotByteWithBackend (byte : U8) (backend : Backend) : Searcher :=
  ofNotByte backend.engine byte

def fromNotByte (byte : U8) : Searcher := fromNotByteWithBackend byte .auto

def fromRangeWithBackend (range : RangeBounds) (backend : Backend) : Exec Searcher :=
  let set := match inclusiveRange range with
    | some range => ByteSet.new.addByteRange range
    | none => ByteSet.new
  fromByteSetWithBackend set backend

def fromRange (range : RangeBounds) : Exec Searcher := fromRangeWithBackend range .auto

/-- `FromIterator` over the items an iterator yields. -/
def fromIter (items : List U8) : Exec Searcher := fromByteSet (.fromIter items)

end Searcher

/-- The scalar test of the stored kernel. -/
def KernelStorage.matchesByte : KernelStorage → U8 → Bool
  | swarAny1 kernel => Swar.Kernel.matchesByte kernel
  | swarAny2 kernel => Swar.Kernel.matchesByte kernel
  | swarAny3 kernel => Swar.Kernel.matchesByte kernel
  | swarRange kernel => Swar.Kernel.matchesByte kernel
  | swarNotByte kernel => Swar.Kernel.matchesByte kernel
  | vectorAny1 kernel => Simd.Kernel.matchesByte kernel
  | vectorAny2 kernel => Simd.Kernel.matchesByte kernel
  | vectorAny3 kernel => Simd.Kernel.matchesByte kernel
  | vectorRange kernel => Simd.Kernel.matchesByte kernel
  | vectorSmallSet kernel => Simd.Kernel.matchesByte kernel
  | vectorFixedNibble kernel => Simd.Kernel.matchesByte kernel
  | vectorNotByte kernel => Simd.Kernel.matchesByte kernel
  | bitset kernel => kernel.contains
  | never => fun _ => false

/-- Plans that rest on a dynamic byte shuffle. -/
def SearchPlan.usesShuffle (plan : SearchPlan) : Bool :=
  match plan.kernelStorage, plan.engine with
  | .vectorSmallSet _, _ => true
  | .vectorFixedNibble _, _ => true
  | .bitset _, .vector _ => true
  | _, _ => false

end Definitions

theorem Engine.byteShuffleLevel_eq_some [Target] {engine : Engine} {level : Level} :
    engine.byteShuffleLevel = some level ↔
      engine = .vector level ∧ hasByteShuffle level = true := by
  cases engine with
  | vector l =>
    simp only [byteShuffleLevel, Option.ite_none_right_eq_some, Option.some.injEq, vector.injEq]
    constructor
    · intro hs
      obtain ⟨h, rfl⟩ := hs
      exact ⟨rfl, h⟩
    · intro hq
      obtain ⟨rfl, h⟩ := hq
      exact ⟨h, rfl⟩
  | swar => simp [byteShuffleLevel]

/-- The searcher's kernel accepts exactly the members of `set`, its scans are exact for them, and
it rests on a byte shuffle only when the engine has one. -/
structure Searcher.Accepts [Target] (searcher : Searcher) (engine : Engine) (set : ByteSet) :
    Prop where
  matchesByte : ∀ b, searcher.search.kernelStorage.matchesByte b = set.contains b
  upholds : searcher.search.Upholds set.contains
  shuffle : searcher.search.usesShuffle = true → ∃ level,
    engine.byteShuffleLevel = some level ∧ searcher.search.engine = .vector level

namespace Searcher

variable [Target] {engine : Engine} {set : ByteSet}

section Plans

variable {K : Type} [StoredKernel K] {kernel : K}

theorem Accepts.swar [Swar.Kernel K] (hlaw : Swar.Lawful kernel)
    (hstored : (StoredKernel.into kernel).matchesByte = Swar.Kernel.matchesByte kernel)
    (hset : ∀ b, Swar.Kernel.matchesByte kernel b = set.contains b)
    (hshuffle : (SearchPlan.swar kernel).usesShuffle = false) :
    Accepts ⟨.swar kernel⟩ engine set where
  matchesByte b := (congrFun hstored b).trans (hset b)
  upholds := funext hset ▸ SearchPlan.swar_upholds hlaw
  shuffle h := absurd (hshuffle.symm.trans h) Bool.false_ne_true

theorem Accepts.vector [Simd.Kernel K] {level : Level} (hlaw : Simd.Lawful level kernel)
    (hstored : (StoredKernel.into kernel).matchesByte = Simd.Kernel.matchesByte kernel)
    (hset : ∀ b, Simd.Kernel.matchesByte kernel b = set.contains b)
    (hshuffle : (SearchPlan.vector level kernel).usesShuffle = true →
      engine.byteShuffleLevel = some level) :
    Accepts ⟨.vector level kernel⟩ engine set where
  matchesByte b := (congrFun hstored b).trans (hset b)
  upholds := funext hset ▸ SearchPlan.vector_upholds hlaw
  shuffle h := ⟨level, hshuffle h, rfl⟩

end Plans

/-- Kernels for `N` needles, whichever union field they are stored in. -/
theorem ofNeedles_accepts {N : ℕ} [StoredKernel (Swar.AnyOf N)] [StoredKernel (Simd.AnyOf N)]
    (needles : Vector U8 N) (hset : ∀ b, set.contains b = true ↔ b ∈ needles.toList)
    (hswar : ∀ kernel : Swar.AnyOf N,
      (StoredKernel.into kernel).matchesByte = Swar.Kernel.matchesByte kernel ∧
        (SearchPlan.swar kernel).usesShuffle = false)
    (hvector : ∀ (level : Level) (kernel : Simd.AnyOf N),
      (StoredKernel.into kernel).matchesByte = Simd.Kernel.matchesByte kernel ∧
        (SearchPlan.vector level kernel).usesShuffle = false) :
    Accepts (ofNeedles engine needles) engine set := by
  have hbyte (b : U8) : decide (b ∈ needles.toList) = set.contains b := by
    rw [Bool.eq_iff_iff, decide_eq_true_eq, hset]
  cases engine with
  | vector level =>
    refine .vector (Simd.anyOf_lawful level needles) (hvector level _).1 (fun b => ?_) fun h => ?_
    · rw [Simd.anyOf_matchesByte, hbyte]
    · exact absurd ((hvector level _).2.symm.trans h) Bool.false_ne_true
  | swar =>
    refine .swar (Swar.anyOf_lawful needles) (hswar _).1 (fun b => ?_) (hswar _).2
    rw [Swar.anyOf_matchesByte, hbyte]

theorem ofNotByte_accepts {byte : U8} (hset : ∀ b, set.contains b = true ↔ b ≠ byte) :
    Accepts (ofNotByte engine byte) engine set := by
  have hbyte (b : U8) : (b != byte) = set.contains b := by
    rw [Bool.eq_iff_iff, bne_iff_ne, hset]
  cases engine with
  | vector level =>
    refine .vector (Simd.notByte_lawful level byte) rfl (fun b => ?_) fun h => ?_
    · rw [Simd.notByte_matchesByte, hbyte]
    · exact absurd h Bool.false_ne_true
  | swar =>
    refine .swar (Swar.notByte_lawful byte) rfl (fun b => ?_) rfl
    rw [Swar.notByte_matchesByte, hbyte]

theorem ofRange_accepts {range : ByteRange} (hle : range.start ≤ range.last)
    (hset : ∀ b, set.contains b = true ↔ range.start ≤ b ∧ b ≤ range.last) :
    Accepts (ofRange engine range) engine set := by
  have hbyte (b : U8) : decide (b - range.start ≤ range.last - range.start) = set.contains b := by
    rw [Bool.eq_iff_iff, decide_eq_true_eq, Swar.contiguous_iff hle, hset]
  cases engine with
  | vector level =>
    refine .vector (Simd.oneRange_lawful level range) rfl (fun b => ?_) fun h => ?_
    · rw [Simd.oneRange_matchesByte, hbyte]
    · exact absurd h Bool.false_ne_true
  | swar =>
    refine .swar (Swar.oneRange_lawful range) rfl (fun b => ?_) rfl
    rw [Swar.oneRange_matchesByte, hbyte]

theorem ofNever_accepts (hset : ∀ b, set.contains b = false) : Accepts ofNever engine set where
  matchesByte b := (hset b).symm
  upholds := (funext hset : set.contains = fun _ => false) ▸ SearchPlan.never_upholds
  shuffle h := absurd h Bool.false_ne_true

theorem ofFixedNibbleSet_accepts {items : List U8}
    (hset : ∀ b, set.contains b = true ↔ b ∈ items) {searcher : Searcher}
    (h : ofFixedNibbleSet engine items = some searcher) : Accepts searcher engine set := by
  simp only [ofFixedNibbleSet, Option.bind_eq_bind, Option.bind_eq_some_iff, Option.pure_def,
    Option.some.injEq] at h
  obtain ⟨level, hlevel, table, htable, rfl⟩ := h
  have hholds := (extractFixedNibbleTable_spec items).2 table htable
  refine .vector (Simd.fixedNibbleSet_lawful level _) rfl (fun b => ?_) fun _ => hlevel
  rw [Bool.eq_iff_iff, hset, ← hholds]
  rfl

theorem ofSmallSet_spec (engine : Engine) (set : ByteSet) :
    Returns (ofSmallSet engine set) fun r => ∀ searcher ∈ r, Accepts searcher engine set := by
  rw [ofSmallSet]
  cases hlevel : engine.byteShuffleLevel with
  | none => exact (returns_pure _ _).mpr (by simp)
  | some level =>
    rw [returns_bind]
    apply returns_mono (extractNibbleLookups_spec set)
    intro lookups h
    obtain ⟨-, hexact⟩ := h
    cases lookups with
    | none => exact (returns_pure _ _).mpr (by simp)
    | some lookups =>
      refine (returns_pure _ _).mpr ?_
      intro t hs
      obtain ⟨⟩ := hs
      exact .vector (Simd.smallSet_lawful level _) rfl (hexact _ _ rfl) fun _ => hlevel

theorem ofBitsetLookup_accepts : Accepts (ofBitsetLookup engine set) engine set := by
  rw [ofBitsetLookup]
  cases hlevel : engine.byteShuffleLevel with
  | none => exact .swar (Swar.bitsetLookup_lawful _) rfl (fun _ => rfl) rfl
  | some level => exact .vector (Simd.bitsetLookup_lawful level _) rfl (fun _ => rfl) fun _ => hlevel

theorem ofLookup_spec (engine : Engine) (set : ByteSet) :
    Returns (ofLookup engine set) fun searcher => Accepts searcher engine set := by
  simp only [ofLookup, returns_bind, returns_pure]
  apply returns_mono (ofSmallSet_spec engine set)
  intro r hr
  cases r with
  | none => exact ofBitsetLookup_accepts
  | some searcher => exact hr searcher rfl

theorem ofManyMembers_spec (engine : Engine) (set : ByteSet) :
    Returns (ofManyMembers engine set) fun searcher => Accepts searcher engine set := by
  rw [ofManyMembers, returns_bind]
  apply returns_mono set.excludedByte_spec
  intro excluded hexcluded
  cases excluded with
  | some byte => exact (returns_pure _ _).mpr (ofNotByte_accepts ((hexcluded byte).mp rfl))
  | none =>
    refine (returns_bind _ _ _).mpr (returns_mono set.asContiguousRange_spec fun range hrange => ?_)
    cases range with
    | some range =>
      obtain ⟨hle, hset⟩ := (hrange range).mp rfl
      exact (returns_pure _ _).mpr (ofRange_accepts hle hset)
    | none => exact ofLookup_spec engine set

/-- The members in order select a kernel for just them. -/
theorem ofMembers_spec (engine : Engine) (set : ByteSet) :
    Returns (ofMembers engine set set.memberList) fun searcher => Accepts searcher engine set := by
  have hset (b : U8) : set.contains b = true ↔ b ∈ set.memberList := (set.mem_memberList b).symm
  match hmembers : set.memberList with
  | [] =>
    refine (returns_pure _ _).mpr (ofNever_accepts fun b => ?_)
    rw [← Bool.not_eq_true, hset, hmembers]
    exact List.not_mem_nil
  | [first] =>
    rw [hmembers] at hset
    exact (returns_pure _ _).mpr (ofNeedles_accepts _ hset (fun _ => ⟨rfl, rfl⟩) fun _ _ => ⟨rfl, rfl⟩)
  | [first, second] =>
    rw [hmembers] at hset
    exact (returns_pure _ _).mpr (ofNeedles_accepts _ hset (fun _ => ⟨rfl, rfl⟩) fun _ _ => ⟨rfl, rfl⟩)
  | [first, second, third] =>
    rw [hmembers] at hset
    exact (returns_pure _ _).mpr (ofNeedles_accepts _ hset (fun _ => ⟨rfl, rfl⟩) fun _ _ => ⟨rfl, rfl⟩)
  | start :: a :: b :: c :: rest =>
    obtain ⟨hle, hfull⟩ := ByteSet.memberList_span hmembers
    simp only [ofMembers, returns_bind, Exec.returns_subWord, returns_ite, returns_pure]
    refine ⟨hle, fun hcount => ?_, fun _ => ?_⟩
    · exact ofRange_accepts hle (hfull (by rw [hmembers, hcount]))
    · rw [hmembers] at hset
      cases hfixed : ofFixedNibbleSet engine (start :: a :: b :: c :: rest) with
      | some searcher => exact (returns_pure _ _).mpr (ofFixedNibbleSet_accepts hset hfixed)
      | none => exact ofLookup_spec engine set

variable [Host]

/-- The branch taken for at most sixteen members, and the one for more. -/
theorem fromByteSetWithBackend_eq (set : ByteSet) (backend : Backend) :
    fromByteSetWithBackend set backend =
      if set.memberList.length ≤ membersMax then ofMembers backend.engine set set.memberList
      else ofManyMembers backend.engine set := by
  obtain ⟨⟨count, members⟩, hwrite, hmembers⟩ :=
    set.writeMembers_spec (Vector.replicate membersMax 0)
  rw [fromByteSetWithBackend, hwrite]
  split_ifs at hmembers ⊢ with hlen
  · obtain ⟨rfl, hget⟩ := hmembers
    have hcount : (BitVec.ofNat 8 set.memberList.length).toNat = set.memberList.length := by
      rw [BitVec.toNat_ofNat]
      exact Nat.mod_eq_of_lt (hlen.trans_lt (by decide))
    have htake : members.toList.take set.memberList.length = set.memberList := by
      refine List.ext_getElem (by simpa using hlen) fun i hi hi' => ?_
      rw [List.getElem_take, Vector.getElem_toList]
      exact hget i (hi'.trans_le hlen) hi'
    have hfit : set.memberList.length ≤ members.toList.length := by
      rwa [Vector.length_toList]
    show (Exec.sliceTo members.toList _ >>= ofMembers backend.engine set) = _
    rw [hcount, Exec.sliceTo, if_pos hfit, htake]
    rfl
  · obtain rfl : count = none := hmembers
    rfl

theorem fromByteSetWithBackend_spec (set : ByteSet) (backend : Backend) :
    Returns (fromByteSetWithBackend set backend) fun searcher =>
      Accepts searcher backend.engine set := by
  rw [fromByteSetWithBackend_eq]
  split_ifs
  · exact ofMembers_spec _ set
  · exact ofManyMembers_spec _ set

/-- The empty set selects the kernel that never matches. -/
theorem fromByteSetWithBackend_empty {set : ByteSet} (hset : ∀ b, set.contains b = false)
    (backend : Backend) : fromByteSetWithBackend set backend = .ok ofNever := by
  have hnil : set.memberList = [] := List.eq_nil_iff_forall_not_mem.mpr fun b hb => by
    rw [ByteSet.mem_memberList, hset] at hb
    exact Bool.false_ne_true hb
  rw [fromByteSetWithBackend_eq, hnil, if_pos (by decide)]
  rfl

/-- Whichever branch is taken, the selected kernel accepts exactly the members of the set, and a
kernel that shuffles bytes is selected only for a level that can. -/
theorem selected_kernel_is_exact (set : ByteSet) (backend : Backend) :
    ∃ searcher, fromByteSetWithBackend set backend = .ok searcher ∧
      (∀ b, searcher.search.kernelStorage.matchesByte b = set.contains b) ∧
      (searcher = ofNever ↔ ∀ b, set.contains b = false) ∧
      (searcher.search.usesShuffle = true → ∃ level, backend.engine = .vector level ∧
        hasByteShuffle level = true ∧ searcher.search.engine = .vector level) := by
  obtain ⟨searcher, hrun, haccepts⟩ := fromByteSetWithBackend_spec set backend
  refine ⟨searcher, hrun, haccepts.matchesByte, ⟨?_, fun hempty => ?_⟩, fun hshuffle => ?_⟩
  · intro h b
    subst h
    exact (haccepts.matchesByte b).symm
  · exact Except.ok.inj (hrun.symm.trans (fromByteSetWithBackend_empty hempty backend))
  · obtain ⟨level, hlevel, hsearch⟩ := haccepts.shuffle hshuffle
    obtain ⟨hengine, hbytes⟩ := Engine.byteShuffleLevel_eq_some.mp hlevel
    exact ⟨level, hengine, hbytes, hsearch⟩

theorem newWithBackend_eq {bytes : List U8} {set : ByteSet}
    (hset : ∀ b, set.contains b = true ↔ b ∈ bytes) (backend : Backend) :
    newWithBackend bytes backend = fromByteSetWithBackend set backend := by
  have h : ByteSet.fromBytes bytes = set := ByteSet.ext_of_contains _ _ fun b => by
    rw [ByteSet.contains_fromBytes, Bool.eq_iff_iff, decide_eq_true_eq, hset]
  rw [newWithBackend, h]

theorem fromIter_eq {items : List U8} {set : ByteSet}
    (hset : ∀ b, set.contains b = true ↔ b ∈ items) :
    fromIter items = fromByteSetWithBackend set .auto := by
  have h : ByteSet.fromIter items = set := ByteSet.ext_of_contains _ _ fun b => by
    rw [ByteSet.contains_fromIter, Bool.eq_iff_iff, decide_eq_true_eq, hset]
  rw [fromIter, fromByteSet, h]

/-- A complement of one byte has too many members to be listed, and is recognised. -/
theorem fromNotByteWithBackend_eq {byte : U8} {set : ByteSet}
    (hset : ∀ b, set.contains b = true ↔ b ≠ byte) (backend : Backend) :
    fromByteSetWithBackend set backend = .ok (fromNotByteWithBackend byte backend) := by
  have hmembers : set.members = {byte}ᶜ := Set.ext fun b => hset b
  have hlen : ¬set.memberList.length ≤ membersMax := by
    rw [ByteSet.length_memberList, hmembers, Set.ncard_compl, Set.ncard_singleton,
      Nat.card_congr BitVec.equivFin.toEquiv, Nat.card_fin]
    decide
  obtain ⟨excluded, hrun, hexcluded⟩ := set.excludedByte_spec
  rw [fromByteSetWithBackend_eq, if_neg hlen, ofManyMembers, hrun, (hexcluded byte).mpr hset]
  rfl

end Searcher

namespace Bound

theorem first_spec (bound : Bound) (byte : U8) :
    bound.startAdmits byte = true ↔ ∃ start, bound.first = some start ∧ start ≤ byte := by
  cases bound with
  | included start => simp [first, startAdmits]
  | excluded start =>
    have hbyte := byte.isLt
    simp only [startAdmits, first, decide_eq_true_eq, BitVec.lt_def, BitVec.le_def]
    split_ifs with h
    · have hnext : (start + 1).toNat = start.toNat + 1 := by
        rw [BitVec.toNat_add]
        exact Nat.mod_eq_of_lt h
      simp only [Option.some.injEq, exists_eq_left', hnext]
      omega
    · simp only [false_and, exists_false, iff_false]
      omega
  | unbounded => simp [first, startAdmits, BitVec.le_def]

theorem last_spec (bound : Bound) (byte : U8) :
    bound.endAdmits byte = true ↔ ∃ last, bound.last = some last ∧ byte ≤ last := by
  cases bound with
  | included last => simp [Bound.last, endAdmits]
  | excluded last =>
    simp only [endAdmits, Bound.last, decide_eq_true_eq, BitVec.lt_def, BitVec.le_def]
    split_ifs with h
    · have hprev : (last - 1).toNat = last.toNat - 1 := by
        rw [BitVec.toNat_sub_of_le (by rwa [BitVec.le_def])]
        rfl
      simp only [Option.some.injEq, exists_eq_left', hprev]
      omega
    · simp only [false_and, exists_false, iff_false]
      omega
  | unbounded =>
    have hbyte := byte.isLt
    simp only [Bound.last, endAdmits, Option.some.injEq, exists_eq_left', true_iff]
    exact Nat.le_of_lt_succ hbyte

end Bound

/-- The range arithmetic leaves exactly the bytes the bounds admit. -/
theorem contains_inclusiveRange (range : RangeBounds) (byte : U8) :
    (match inclusiveRange range with
      | some range => ByteSet.new.addByteRange range
      | none => ByteSet.new).contains byte = range.contains byte := by
  rw [Bool.eq_iff_iff, RangeBounds.contains, Bool.and_eq_true, Bound.first_spec, Bound.last_spec]
  simp only [inclusiveRange, Option.bind_eq_bind]
  cases range.startBound.first with
  | none => simp
  | some start =>
    cases range.endBound.last with
    | none => simp
    | some last =>
      simp only [Option.bind_some, Option.some.injEq, exists_eq_left']
      split_ifs with h
      · simp only [ByteSet.contains_new, Bool.false_eq_true, false_iff, not_and]
        intro hstart hlast
        exact absurd (BitVec.le_trans hstart hlast) (BitVec.not_le.mpr h)
      · simp

theorem Searcher.fromRangeWithBackend_eq [Target] [Host] {range : RangeBounds} {set : ByteSet}
    (hset : ∀ b, set.contains b = range.contains b) (backend : Backend) :
    fromRangeWithBackend range backend = fromByteSetWithBackend set backend := by
  rw [fromRangeWithBackend]
  congr 1
  exact ByteSet.ext_of_contains _ _ fun b => (contains_inclusiveRange range b).trans (hset b).symm

/-- Every constructor builds the plan that `fromByteSetWithBackend` builds for the same bytes. -/
theorem Searcher.same_set_same_plan [Target] [Host] (backend : Backend) :
    (∀ bytes bytes' : List U8, (∀ b, b ∈ bytes ↔ b ∈ bytes') →
      newWithBackend bytes backend = newWithBackend bytes' backend ∧
        fromIter bytes = newWithBackend bytes' .auto) ∧
    ∀ set : ByteSet, ∃ searcher, fromByteSetWithBackend set backend = .ok searcher ∧
      (∀ bytes : List U8, (∀ b, b ∈ bytes ↔ set.contains b = true) →
        newWithBackend bytes backend = .ok searcher ∧
          (backend = .auto → fromIter bytes = .ok searcher)) ∧
      (∀ range : RangeBounds, (∀ b, range.contains b = set.contains b) →
        fromRangeWithBackend range backend = .ok searcher) ∧
      (∀ x : U8, (∀ b, set.contains b = true ↔ b ≠ x) →
        fromNotByteWithBackend x backend = searcher) := by
  refine ⟨fun bytes bytes' hsame => ?_, fun set => ?_⟩
  · have hset (b : U8) : (ByteSet.fromBytes bytes').contains b = true ↔ b ∈ bytes' := by
      rw [ByteSet.contains_fromBytes, decide_eq_true_eq]
    have hset' (b : U8) := (hset b).trans (hsame b).symm
    exact ⟨newWithBackend_eq hset' backend, fromIter_eq hset'⟩
  · obtain ⟨searcher, hrun, -⟩ := fromByteSetWithBackend_spec set backend
    refine ⟨searcher, hrun, fun bytes hbytes => ⟨?_, ?_⟩, fun range hrange => ?_, fun x hx => ?_⟩
    · rw [newWithBackend_eq (fun b => (hbytes b).symm), hrun]
    · intro h
      subst h
      rw [fromIter_eq fun b => (hbytes b).symm, hrun]
    · rw [fromRangeWithBackend_eq (fun b => (hrange b).symm), hrun]
    · exact Except.ok.inj ((fromNotByteWithBackend_eq hx backend).symm.trans hrun)

end MemchrN
