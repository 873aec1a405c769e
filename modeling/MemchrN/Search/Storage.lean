import MemchrN.Search.Staging
import MemchrN.Swar.Kernels
import MemchrN.Vector.Kernels

namespace MemchrN

abbrev MatchedBitset := U128

abbrev matchedBits : ℕ := 128

/-- A haystack and the window of it covered by the current match batch. -/
structure IterState where
  haystack : List U8
  scanOffset : ℕ
  matchBase : ℕ
  deriving DecidableEq

inductive KernelKind
  | bitsetLookup | smallSet | fixedNibble | oneByte | notByte | twoBytes | threeBytes | oneRange
  | never
  deriving DecidableEq, Repr

/-- The union of all kernels. The constructor is the live field. -/
inductive KernelStorage
  | swarAny1 (kernel : Swar.AnyOf 1)
  | swarAny2 (kernel : Swar.AnyOf 2)
  | swarAny3 (kernel : Swar.AnyOf 3)
  | swarRange (kernel : Swar.OneRange)
  | swarNotByte (kernel : Swar.NotByte)
  | vectorAny1 (kernel : Simd.AnyOf 1)
  | vectorAny2 (kernel : Simd.AnyOf 2)
  | vectorAny3 (kernel : Simd.AnyOf 3)
  | vectorRange (kernel : Simd.OneRange)
  | vectorSmallSet (kernel : Simd.SmallSet)
  | vectorFixedNibble (kernel : Simd.FixedNibbleSet)
  | vectorNotByte (kernel : Simd.NotByte)
  | bitset (kernel : BitsetLookup)
  | never

/-- A kernel with a field of its own in the union; reading another field is undefined behaviour. -/
class StoredKernel (K : Type) where
  kind : KernelKind
  into : K → KernelStorage
  fromStorage : KernelStorage → Exec K
  fromStorage_into : ∀ kernel, fromStorage (into kernel) = .ok kernel

namespace StoredKernel

instance : StoredKernel (Swar.AnyOf 1) where
  kind := .oneByte
  into := .swarAny1
  fromStorage | .swarAny1 kernel => pure kernel | _ => throw .undefinedBehavior
  fromStorage_into _ := rfl

instance : StoredKernel (Swar.AnyOf 2) where
  kind := .twoBytes
  into := .swarAny2
  fromStorage | .swarAny2 kernel => pure kernel | _ => throw .undefinedBehavior
  fromStorage_into _ := rfl

instance : StoredKernel (Swar.AnyOf 3) where
  kind := .threeBytes
  into := .swarAny3
  fromStorage | .swarAny3 kernel => pure kernel | _ => throw .undefinedBehavior
  fromStorage_into _ := rfl

instance : StoredKernel Swar.OneRange where
  kind := .oneRange
  into := .swarRange
  fromStorage | .swarRange kernel => pure kernel | _ => throw .undefinedBehavior
  fromStorage_into _ := rfl

instance : StoredKernel Swar.NotByte where
  kind := .notByte
  into := .swarNotByte
  fromStorage | .swarNotByte kernel => pure kernel | _ => throw .undefinedBehavior
  fromStorage_into _ := rfl

instance : StoredKernel (Simd.AnyOf 1) where
  kind := .oneByte
  into := .vectorAny1
  fromStorage | .vectorAny1 kernel => pure kernel | _ => throw .undefinedBehavior
  fromStorage_into _ := rfl

instance : StoredKernel (Simd.AnyOf 2) where
  kind := .twoBytes
  into := .vectorAny2
  fromStorage | .vectorAny2 kernel => pure kernel | _ => throw .undefinedBehavior
  fromStorage_into _ := rfl

instance : StoredKernel (Simd.AnyOf 3) where
  kind := .threeBytes
  into := .vectorAny3
  fromStorage | .vectorAny3 kernel => pure kernel | _ => throw .undefinedBehavior
  fromStorage_into _ := rfl

instance : StoredKernel Simd.OneRange where
  kind := .oneRange
  into := .vectorRange
  fromStorage | .vectorRange kernel => pure kernel | _ => throw .undefinedBehavior
  fromStorage_into _ := rfl

instance : StoredKernel Simd.SmallSet where
  kind := .smallSet
  into := .vectorSmallSet
  fromStorage | .vectorSmallSet kernel => pure kernel | _ => throw .undefinedBehavior
  fromStorage_into _ := rfl

instance : StoredKernel Simd.FixedNibbleSet where
  kind := .fixedNibble
  into := .vectorFixedNibble
  fromStorage | .vectorFixedNibble kernel => pure kernel | _ => throw .undefinedBehavior
  fromStorage_into _ := rfl

instance : StoredKernel Simd.NotByte where
  kind := .notByte
  into := .vectorNotByte
  fromStorage | .vectorNotByte kernel => pure kernel | _ => throw .undefinedBehavior
  fromStorage_into _ := rfl

instance : StoredKernel BitsetLookup where
  kind := .bitsetLookup
  into := .bitset
  fromStorage | .bitset kernel => pure kernel | _ => throw .undefinedBehavior
  fromStorage_into _ := rfl

end StoredKernel

/-- Scan entry points, reading their kernel from the union. -/
structure ScanOps where
  nextMatchBatch : KernelStorage → IterState → Exec (MatchedBitset × IterState)
  countAll : KernelStorage → List U8 → Exec ℕ
  firstMatch : KernelStorage → List U8 → Exec (Option ℕ)
  lastMatch : KernelStorage → List U8 → Exec (Option ℕ)

def neverScanOps : ScanOps where
  nextMatchBatch _ state :=
    pure (0, { state with scanOffset := state.haystack.length, matchBase := state.haystack.length })
  countAll _ _ := pure 0
  firstMatch _ _ := pure none
  lastMatch _ _ := pure none

/-- What a batch must satisfy: the bounds, no match skipped, the bits exactly the matches of the
batch, progress, and zero only at exhaustion. -/
structure BatchSpec (p : U8 → Bool) (old : IterState) (r : MatchedBitset × IterState) : Prop where
  haystack_eq : r.2.haystack = old.haystack
  base_ge : old.scanOffset ≤ r.2.matchBase
  base_le : r.2.matchBase ≤ r.2.scanOffset
  offset_le : r.2.scanOffset ≤ old.haystack.length
  span_le : r.2.scanOffset - r.2.matchBase ≤ matchedBits
  advances : old.scanOffset < r.2.scanOffset ∨ old.scanOffset = old.haystack.length
  skips_none : ∀ o ∈ matchSet p old.haystack, old.scanOffset ≤ o → r.2.matchBase ≤ o
  bits_iff : ∀ k, r.1.getLsbD k = true ↔
    r.2.matchBase + k < r.2.scanOffset ∧ r.2.matchBase + k ∈ matchSet p old.haystack
  exhausted : r.1 = 0#128 → r.2.scanOffset = old.haystack.length

/-- The documented guarantee of `next_match_batch`, for the bytes `p` accepts. -/
def ScanOps.BatchContract (ops : ScanOps) (storage : KernelStorage) (p : U8 → Bool) : Prop :=
  ∀ state : IterState, state.scanOffset ≤ state.haystack.length →
    Returns (ops.nextMatchBatch storage state) (BatchSpec p state)

/-- The documented guarantee of `count_all`. -/
def ScanOps.CountContract (ops : ScanOps) (storage : KernelStorage) (p : U8 → Bool) : Prop :=
  ∀ haystack, Returns (ops.countAll storage haystack) (· = haystack.countP p)

/-- The documented guarantees of all four entry points. -/
structure ScanOps.Contract (ops : ScanOps) (storage : KernelStorage) (p : U8 → Bool) : Prop where
  nextMatchBatch : ops.BatchContract storage p
  countAll : ops.CountContract storage p
  firstMatch : ∀ haystack,
    Returns (ops.firstMatch storage haystack) (LeastIn (matchSet p haystack))
  lastMatch : ∀ haystack,
    Returns (ops.lastMatch storage haystack) (GreatestIn (matchSet p haystack))

/-- No match at or after the scan offset lies before `a`. -/
abbrev IterState.Passed (state : IterState) (p : U8 → Bool) (a : ℕ) : Prop :=
  ClearBelow (ahead (matchSet p state.haystack) state.scanOffset) a

section Batches

variable {p : U8 → Bool} {state : IterState} {base n : ℕ} {bits : MatchedBitset}

/-- A batch that covers the `n` bytes from `base` on, all matches before it being ruled out. -/
theorem BatchSpec.of_window (hle : state.scanOffset ≤ base)
    (hclear : state.Passed p base)
    (hfit : base + n ≤ state.haystack.length) (hn : n ≤ matchedBits)
    (hbits : bitSet bits = window (matchSet p state.haystack) base n)
    (hend : bits = 0#128 → base + n = state.haystack.length)
    (hmove : state.scanOffset < base + n ∨ state.scanOffset = state.haystack.length) :
    BatchSpec p state (bits, { state with matchBase := base, scanOffset := base + n }) where
  haystack_eq := rfl
  base_ge := hle
  base_le := Nat.le_add_right _ _
  offset_le := hfit
  span_le := by simpa using hn
  advances := hmove
  skips_none o ho hge := hclear o ⟨ho, hge⟩
  bits_iff k := by
    have h := Set.ext_iff.mp hbits k
    simp only [mem_bitSet, window, Set.mem_ofPred_eq] at h
    rw [h]
    exact and_congr_left fun _ => by simp
  exhausted := hend

/-- A batch handed back because it holds a match. -/
theorem BatchSpec.of_hit (hle : state.scanOffset ≤ base)
    (hclear : state.Passed p base)
    (hfit : base + n ≤ state.haystack.length) (hn : n ≤ matchedBits)
    (hbits : bitSet bits = window (matchSet p state.haystack) base n)
    (hhit : window (matchSet p state.haystack) base n ≠ ∅) :
    BatchSpec p state (bits, { state with matchBase := base, scanOffset := base + n }) := by
  have hpos : 0 < n := by
    obtain ⟨i, hi⟩ := Set.nonempty_iff_ne_empty.mpr hhit
    exact Nat.zero_lt_of_lt (window_subset i hi)
  refine of_window hle hclear hfit hn hbits (fun h0 => absurd ?_ hhit) (.inl (by omega))
  rw [← hbits, h0, bitSet_eq_empty]

/-- The last batch, which ends with the haystack. -/
theorem BatchSpec.of_tail {tail : List U8} (hsuffix : tail <:+ state.haystack)
    (hle : state.scanOffset + tail.length ≤ state.haystack.length) (hn : tail.length ≤ matchedBits)
    (hclear : state.Passed p (state.haystack.length - tail.length)) (hbits : bitSet bits = matchSet p tail) :
    BatchSpec p state (bits, { state with
      matchBase := state.haystack.length - tail.length, scanOffset := state.haystack.length }) := by
  have hend : state.haystack.length - tail.length + tail.length = state.haystack.length :=
    Nat.sub_add_cancel hsuffix.length_le
  have h := of_window (by omega) hclear hend.le hn (hbits.trans (matchSet_suffix p hsuffix))
    (fun _ => hend) (by omega)
  rwa [hend] at h

/-- The end of a batch scan: the mask of what no block fits in, or an empty batch. -/
theorem returns_batchTail {block : ℕ} {tailBits : List U8 → List U8 → Exec U64}
    {shortTailBits : List U8 → Exec U64} (htails : TailContract p block tailBits shortTailBits)
    {tail : List U8} (hsuffix : tail <:+ state.haystack) (hshort : tail.length < block)
    (hblock : block ≤ matchedBits)
    (hle : state.scanOffset + tail.length ≤ state.haystack.length)
    (hclear : state.Passed p (state.haystack.length - tail.length)) :
    Returns (do
      let matchBase ← Exec.sub state.haystack.length tail.length
      let state := { state with matchBase := matchBase, scanOffset := state.haystack.length }
      if tail.isEmpty then return (0, state)
      let bits ← tailBits state.haystack tail
      return (bits.setWidth matchedBits, state)) (BatchSpec p state) := by
  have hfit : tail.length ≤ matchedBits := hshort.le.trans hblock
  simp only [returns_bind, Exec.returns_sub, returns_ite, returns_pure]
  refine ⟨hsuffix.length_le, ?_, ?_⟩
  · intro hempty
    apply BatchSpec.of_tail hsuffix hle hfit hclear
    rw [List.isEmpty_iff.mp hempty, matchSet_nil]
    exact bitSet_eq_empty.mpr rfl
  · intro hempty
    have hne : tail ≠ [] := by simpa using hempty
    obtain ⟨bits, hrun, hbits⟩ := htails.tail state.haystack tail hsuffix hne hshort
    rw [hrun, returns_ok]
    exact .of_tail hsuffix hle hfit hclear (bitSet_widen (marksMatches_iff.mp hbits))

theorem matchSet_never (xs : List U8) : matchSet (fun _ => false) xs = ∅ := by
  ext o
  simp [matchSet]

theorem neverScanOps_contract (storage : KernelStorage) :
    neverScanOps.Contract storage fun _ => false where
  nextMatchBatch state hstate := by
    rw [neverScanOps, returns_pure]
    refine BatchSpec.of_window hstate ?_ le_rfl (Nat.zero_le _) ?_ (fun _ => rfl) (by omega)
    · simp [matchSet_never, ahead, ClearBelow]
    · simp [matchSet_never, window, bitSet]
  countAll haystack := by simp [neverScanOps, List.countP_eq_zero.mpr]
  firstMatch haystack := by simp [neverScanOps, LeastIn, matchSet_never]
  lastMatch haystack := by simp [neverScanOps, GreatestIn, matchSet_never]

end Batches

end MemchrN
