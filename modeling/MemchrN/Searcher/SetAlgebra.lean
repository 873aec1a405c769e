import MemchrN.Bitset.Build
import MemchrN.Searcher.Agreement

namespace MemchrN

section Definitions

/-- The offsets of the bytes that `p` accepts. -/
def occurrences (p : U8 → Bool) (haystack : List U8) : Finset ℕ := (haystack.findIdxs p).toFinset

/-- The offsets a set stands for in a haystack, by the steps that build it: what each step does to
sets of bytes is done to sets of offsets. -/
def Build.offsets (haystack : List U8) : Build → Finset ℕ
  | new => ∅
  | full => Finset.range haystack.length
  | fromBytes l | fromIter l => occurrences l.contains haystack
  | add e byte => e.offsets haystack ∪ occurrences (· == byte) haystack
  | addAll e l | extend e l => e.offsets haystack ∪ occurrences l.contains haystack
  | remove e byte => e.offsets haystack \ occurrences (· == byte) haystack
  | addRange e start last =>
    e.offsets haystack ∪ occurrences (fun b => decide (start ≤ b ∧ b ≤ last)) haystack
  | removeRange e start last =>
    e.offsets haystack \ occurrences (fun b => decide (start ≤ b ∧ b ≤ last)) haystack
  | invert e | not e => Finset.range haystack.length \ e.offsets haystack
  | union e f | bitOr e f => e.offsets haystack ∪ f.offsets haystack
  | intersection e f | bitAnd e f => e.offsets haystack ∩ f.offsets haystack
  | difference e f | sub e f => e.offsets haystack \ f.offsets haystack
  | symmetricDifference e f | bitXor e f => symmDiff (e.offsets haystack) (f.offsets haystack)

end Definitions

section Offsets

variable {haystack : List U8} {o : ℕ} {byte : U8}

theorem mem_occurrences (p : U8 → Bool) (hbyte : haystack[o]? = some byte) :
    o ∈ occurrences p haystack ↔ p byte = true := by
  rw [occurrences, List.mem_toFinset, mem_findIdxs]
  simp [matchSet, hbyte]

theorem occurrences_lt (p : U8 → Bool) (ho : o ∈ occurrences p haystack) : o < haystack.length :=
  clearFrom_length p haystack o (mem_findIdxs.mp (List.mem_toFinset.mp ho))

namespace Build

/-- Every step does to the byte at an offset what it does to the offset. -/
theorem mem_offsets (e : Build) (hbyte : haystack[o]? = some byte) :
    o ∈ e.offsets haystack ↔ byte ∈ e.denote := by
  have hlt : o < haystack.length := (List.getElem?_eq_some_iff.mp hbyte).1
  induction e with
  | new => simp [offsets, denote]
  | full => simp [offsets, denote, hlt]
  | fromBytes l | fromIter l => simp [offsets, denote, mem_occurrences _ hbyte]
  | add e b ih => simp [offsets, denote, mem_occurrences _ hbyte, ih, or_comm]
  | addAll e l ih | extend e l ih => simp [offsets, denote, mem_occurrences _ hbyte, ih]
  | remove e b ih => simp [offsets, denote, mem_occurrences _ hbyte, ih]
  | addRange e start last ih | removeRange e start last ih =>
    simp [offsets, denote, mem_occurrences _ hbyte, ih]
  | invert e ih | not e ih => simp [offsets, denote, hlt, ih]
  | union e f ihe ihf | bitOr e f ihe ihf => simp [offsets, denote, ihe, ihf]
  | intersection e f ihe ihf | bitAnd e f ihe ihf => simp [offsets, denote, ihe, ihf]
  | difference e f ihe ihf | sub e f ihe ihf => simp [offsets, denote, ihe, ihf]
  | symmetricDifference e f ihe ihf | bitXor e f ihe ihf =>
    simp only [offsets, denote, Finset.mem_symmDiff, Set.mem_symmDiff, ihe, ihf]

/-- No step leaves the haystack. -/
theorem offsets_lt (e : Build) (ho : o ∈ e.offsets haystack) : o < haystack.length := by
  induction e with
  | new => simp [offsets] at ho
  | full => simpa [offsets] using ho
  | fromBytes l | fromIter l => exact occurrences_lt _ ho
  | add e b ih => exact (Finset.mem_union.mp ho).elim ih (occurrences_lt _)
  | addAll e l ih | extend e l ih => exact (Finset.mem_union.mp ho).elim ih (occurrences_lt _)
  | addRange e start last ih => exact (Finset.mem_union.mp ho).elim ih (occurrences_lt _)
  | remove e b ih => exact ih (Finset.mem_sdiff.mp ho).1
  | removeRange e start last ih => exact ih (Finset.mem_sdiff.mp ho).1
  | invert e ih | not e ih => exact Finset.mem_range.mp (Finset.mem_sdiff.mp ho).1
  | union e f ihe ihf | bitOr e f ihe ihf => exact (Finset.mem_union.mp ho).elim ihe ihf
  | intersection e f ihe ihf | bitAnd e f ihe ihf => exact ihe (Finset.mem_inter.mp ho).1
  | difference e f ihe ihf | sub e f ihe ihf => exact ihe (Finset.mem_sdiff.mp ho).1
  | symmetricDifference e f ihe ihf | bitXor e f ihe ihf =>
    rcases Finset.mem_symmDiff.mp ho with ⟨ho, -⟩ | ⟨ho, -⟩
    · exact ihe ho
    · exact ihf ho

theorem offsets_eq (e : Build) (haystack : List U8) :
    e.offsets haystack = occurrences e.run.contains haystack := by
  ext o
  cases hbyte : haystack[o]? with
  | none =>
    have hle : haystack.length ≤ o := List.getElem?_eq_none_iff.mp hbyte
    constructor
    · intro ho
      exact absurd (e.offsets_lt ho) (by omega)
    · intro ho
      exact absurd (occurrences_lt _ ho) (by omega)
  | some byte => rw [mem_offsets e hbyte, mem_occurrences _ hbyte, contains_run]

end Build

end Offsets

/-- Searching commutes with the algebra of sets. However a set is built and whatever the backend,
its searcher yields, finds and counts the offsets that come out of the same steps taken on sets of
offsets. -/
theorem search_follows_the_build [Target] [Host] (e : Build) (backend : Backend) : ∃ finder,
    Searcher.fromByteSetWithBackend e.run backend = .ok finder ∧
    ∀ haystack, ∃ found first last,
      (finder.iter haystack).collect = .ok found ∧ found.Pairwise (· < ·) ∧
      found.toFinset = e.offsets haystack ∧
      (finder.iter haystack).count = .ok (e.offsets haystack).card ∧
      finder.find haystack = .ok first ∧ LeastIn (e.offsets haystack) first ∧
      finder.rfind haystack = .ok last ∧ GreatestIn (e.offsets haystack) last := by
  obtain ⟨finder, hrun, haccepts⟩ := Searcher.fromByteSetWithBackend_spec e.run backend
  refine ⟨finder, hrun, ?_⟩
  intro haystack
  have hsorted : (haystack.findIdxs e.run.contains).Pairwise (· < ·) := List.pairwise_findIdxs
  have hmem (o : ℕ) : o ∈ (e.offsets haystack : Set ℕ) ↔ o ∈ haystack.findIdxs e.run.contains := by
    rw [e.offsets_eq, occurrences, Finset.mem_coe, List.mem_toFinset]
  have hcard : (e.offsets haystack).card = (haystack.findIdxs e.run.contains).length := by
    rw [e.offsets_eq, occurrences, List.toFinset_card_of_nodup List.nodup_findIdxs]
  refine ⟨_, _, _, Searcher.collect_eq haccepts haystack, hsorted, (e.offsets_eq haystack).symm, ?_,
    Searcher.find_eq haccepts haystack, leastIn_head hsorted hmem,
    Searcher.rfind_eq haccepts haystack, greatestIn_getLast hsorted hmem⟩
  rw [hcard]
  exact Searcher.count_eq haccepts haystack

end MemchrN
