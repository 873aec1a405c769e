import MemchrN.Search.Storage
import MemchrN.Swar.Count
import MemchrN.Swar.Ends
import MemchrN.Vector.Count
import MemchrN.Vector.Ends

namespace MemchrN

section Definitions

variable [Target] {K : Type} [StoredKernel K]

/-- The scan operations whose entry points run `K`. -/
def Swar.scanOps (K : Type) [StoredKernel K] [Swar.Kernel K] : ScanOps where
  nextMatchBatch storage state := do
    let kernel ← StoredKernel.fromStorage (K := K) storage
    Swar.nextMatchBatch kernel state
  countAll storage haystack := do
    let kernel ← StoredKernel.fromStorage (K := K) storage
    Swar.countAll kernel haystack
  firstMatch storage haystack := do
    let kernel ← StoredKernel.fromStorage (K := K) storage
    Swar.firstMatch kernel haystack
  lastMatch storage haystack := do
    let kernel ← StoredKernel.fromStorage (K := K) storage
    Swar.lastMatch kernel haystack

def Simd.scanOps (level : Level) (K : Type) [StoredKernel K] [Simd.Kernel K] : ScanOps where
  nextMatchBatch storage state := do
    let kernel ← StoredKernel.fromStorage (K := K) storage
    Simd.nextMatchBatch level kernel state
  countAll storage haystack := do
    let kernel ← StoredKernel.fromStorage (K := K) storage
    Simd.countAll level kernel haystack
  firstMatch storage haystack := do
    let kernel ← StoredKernel.fromStorage (K := K) storage
    Simd.firstMatch level kernel haystack
  lastMatch storage haystack := do
    let kernel ← StoredKernel.fromStorage (K := K) storage
    Simd.lastMatch level kernel haystack

inductive Engine
  | vector (level : Level)
  | swar

/-- A kernel paired with the scan operations and the level that may run it. -/
structure SearchPlan where
  kernelStorage : KernelStorage
  scanOps : ScanOps
  engine : Engine
  kernelKind : KernelKind

namespace SearchPlan

def swar [Swar.Kernel K] (kernel : K) : SearchPlan where
  kernelStorage := StoredKernel.into kernel
  scanOps := Swar.scanOps K
  engine := .swar
  kernelKind := StoredKernel.kind K

def vector [Simd.Kernel K] (level : Level) (kernel : K) : SearchPlan where
  kernelStorage := StoredKernel.into kernel
  scanOps := Simd.scanOps level K
  engine := .vector level
  kernelKind := StoredKernel.kind K

def never : SearchPlan where
  kernelStorage := .never
  scanOps := neverScanOps
  engine := .swar
  kernelKind := .never

variable (plan : SearchPlan)

def firstMatch (haystack : List U8) : Exec (Option ℕ) := do
  let res ← plan.scanOps.firstMatch plan.kernelStorage haystack
  Exec.assertUnchecked (res.all fun idx => decide (idx < haystack.length))
  return res

def lastMatch (haystack : List U8) : Exec (Option ℕ) := do
  let res ← plan.scanOps.lastMatch plan.kernelStorage haystack
  Exec.assertUnchecked (res.all fun idx => decide (idx < haystack.length))
  return res

def countAll (haystack : List U8) : Exec ℕ := do
  let res ← plan.scanOps.countAll plan.kernelStorage haystack
  Exec.assertUnchecked (decide (res ≤ haystack.length))
  return res

def nextMatchBatch (state : IterState) : Exec (MatchedBitset × IterState) := do
  Exec.debugAssert (decide (state.scanOffset ≤ state.haystack.length))
  let haystackLen := state.haystack.length
  let (bits, state) ← plan.scanOps.nextMatchBatch plan.kernelStorage state
  Exec.assertUnchecked (decide (state.haystack.length = haystackLen))
  Exec.debugAssert (decide (state.scanOffset ≤ state.haystack.length))
  Exec.debugAssert (decide (state.matchBase ≤ state.haystack.length))
  let span ← Exec.sub state.scanOffset state.matchBase
  Exec.debugAssert (decide (span ≤ matchedBits))
  return (bits, state)

end SearchPlan

/-- `MemchrN`: searches for the bytes of a fixed set. -/
structure Searcher where
  search : SearchPlan

namespace Searcher

def find (finder : Searcher) (haystack : List U8) : Exec (Option ℕ) :=
  finder.search.firstMatch haystack

def rfind (finder : Searcher) (haystack : List U8) : Exec (Option ℕ) :=
  finder.search.lastMatch haystack

end Searcher

end Definitions

/-- The plan's operations are exact for the bytes `p` accepts. -/
def SearchPlan.Upholds (plan : SearchPlan) (p : U8 → Bool) : Prop :=
  plan.scanOps.Contract plan.kernelStorage p

section Constructors

theorem SearchPlan.never_upholds : SearchPlan.never.Upholds fun _ => false :=
  neverScanOps_contract _

variable {K : Type} [StoredKernel K]

theorem returns_fromStorage {β : Type} (kernel : K) (f : K → Exec β) (Q : β → Prop) :
    Returns (StoredKernel.fromStorage (StoredKernel.into kernel) >>= f) Q ↔ Returns (f kernel) Q := by
  rw [returns_bind, StoredKernel.fromStorage_into, returns_ok]

variable [Target]

theorem SearchPlan.swar_upholds [Swar.Kernel K] {kernel : K} (hlaw : Swar.Lawful kernel) :
    (SearchPlan.swar kernel).Upholds (Swar.Kernel.matchesByte kernel) where
  nextMatchBatch state hstate := (returns_fromStorage _ _ _).mpr
    (Swar.nextMatchBatch_spec hlaw state hstate)
  countAll haystack := (returns_fromStorage _ _ _).mpr (Swar.countAll_spec hlaw haystack)
  firstMatch haystack := (returns_fromStorage _ _ _).mpr (Swar.firstMatch_spec hlaw haystack)
  lastMatch haystack := (returns_fromStorage _ _ _).mpr (Swar.lastMatch_spec hlaw haystack)

theorem SearchPlan.vector_upholds [Simd.Kernel K] {level : Level} {kernel : K}
    (hlaw : Simd.Lawful level kernel) :
    (SearchPlan.vector level kernel).Upholds (Simd.Kernel.matchesByte kernel) where
  nextMatchBatch state hstate := (returns_fromStorage _ _ _).mpr
    (Simd.nextMatchBatch_spec hlaw state hstate)
  countAll haystack := (returns_fromStorage _ _ _).mpr (Simd.countAll_spec hlaw haystack)
  firstMatch haystack := (returns_fromStorage _ _ _).mpr (Simd.firstMatch_spec hlaw haystack)
  lastMatch haystack := (returns_fromStorage _ _ _).mpr (Simd.lastMatch_spec hlaw haystack)

/-- On targets of either byte order both engines mark exactly the matches of a tail and of a short
slice: neither padding nor bytes read twice add or lose a bit. -/
theorem tails_mark_exactly :
    (∀ {K : Type} [Swar.Kernel K] (kernel : K), Swar.Lawful kernel →
      TailContract (Swar.Kernel.matchesByte kernel) 8 (Swar.tailBits kernel)
        (Swar.shortTailBits kernel)) ∧
    ∀ {K : Type} [Simd.Kernel K] (level : Level) (kernel : K), Simd.Lawful level kernel →
      TailContract (Simd.Kernel.matchesByte kernel) 16 (Simd.tailBits level kernel)
        (Simd.shortTailBits level kernel) :=
  ⟨fun _ => Swar.tails_upheld, fun _ _ => Simd.tails_upheld⟩

end Constructors

namespace SearchPlan

variable {plan : SearchPlan} {p : U8 → Bool}

theorem firstMatch_spec (h : plan.Upholds p) (haystack : List U8) :
    Returns (plan.firstMatch haystack) (LeastIn (matchSet p haystack)) := by
  simp only [firstMatch, returns_bind, Exec.returns_assertUnchecked, returns_pure]
  refine returns_mono (h.firstMatch haystack) fun res hres => ⟨?_, hres⟩
  cases res with
  | none => rfl
  | some idx => simpa using clearFrom_length p haystack idx hres.1

theorem lastMatch_spec (h : plan.Upholds p) (haystack : List U8) :
    Returns (plan.lastMatch haystack) (GreatestIn (matchSet p haystack)) := by
  simp only [lastMatch, returns_bind, Exec.returns_assertUnchecked, returns_pure]
  refine returns_mono (h.lastMatch haystack) fun res hres => ⟨?_, hres⟩
  cases res with
  | none => rfl
  | some idx => simpa using clearFrom_length p haystack idx hres.1

theorem countAll_spec (h : plan.scanOps.CountContract plan.kernelStorage p) (haystack : List U8) :
    Returns (plan.countAll haystack) (· = haystack.countP p) := by
  simp only [countAll, returns_bind, Exec.returns_assertUnchecked, returns_pure]
  refine returns_mono (h haystack) fun res hres => ⟨?_, hres⟩
  simpa [hres] using List.countP_le_length

/-- The checks around the batch hold, so the batch comes back as it is. -/
theorem nextMatchBatch_spec (h : plan.scanOps.BatchContract plan.kernelStorage p) {state : IterState}
    (hstate : state.scanOffset ≤ state.haystack.length) :
    Returns (plan.nextMatchBatch state) (BatchSpec p state) := by
  simp only [nextMatchBatch, returns_bind, Exec.returns_debugAssert, Exec.returns_assertUnchecked,
    Exec.returns_sub, returns_pure, decide_eq_true_eq]
  refine ⟨hstate, returns_mono (h state hstate) fun r hr => ?_⟩
  have hlen := hr.haystack_eq
  have hoffset := hr.offset_le
  rw [← hlen] at hoffset
  exact ⟨by rw [hlen], hoffset, hr.base_le.trans hoffset, hr.base_le, hr.span_le, hr⟩

end SearchPlan

end MemchrN
