import MemchrN.Searcher.Iter
import MemchrN.Searcher.Select

namespace MemchrN.Searcher

variable [Target] {searcher : Searcher} {engine : Engine} {set : ByteSet}
  (haccepts : Accepts searcher engine set) (haystack : List U8)

include haccepts

theorem find_eq : searcher.find haystack = .ok (haystack.findIdxs set.contains).head? := by
  obtain ⟨r, hr, hleast⟩ := SearchPlan.firstMatch_spec haccepts.upholds haystack
  rw [find, hr, leastIn_unique hleast (leastIn_findIdxs _ _)]

theorem rfind_eq : searcher.rfind haystack = .ok (haystack.findIdxs set.contains).getLast? := by
  obtain ⟨r, hr, hgreatest⟩ := SearchPlan.lastMatch_spec haccepts.upholds haystack
  rw [rfind, hr, greatestIn_unique hgreatest (greatestIn_findIdxs _ _)]

theorem collect_eq : (searcher.iter haystack).collect = .ok (haystack.findIdxs set.contains) := by
  have h := returns_eq (Iter.collect_spec haccepts.upholds.nextMatchBatch
    (Iter.valid_iter searcher haystack))
  rwa [Iter.pending_iter] at h

theorem count_eq :
    (searcher.iter haystack).count = .ok (haystack.findIdxs set.contains).length := by
  have h := returns_eq (Iter.count_spec (Iter.valid_iter searcher haystack) haccepts.upholds.countAll)
  rwa [Iter.pending_iter] at h

omit haccepts
variable [Host]

/-- Every backend finds what the naive scan finds, hence what every other backend finds. -/
theorem backends_agree (set : ByteSet) (backend backend' : Backend) :
    ∃ searcher searcher', fromByteSetWithBackend set backend = .ok searcher ∧
      fromByteSetWithBackend set backend' = .ok searcher' ∧
      ∀ haystack : List U8, ∃ first last offsets,
        LeastIn (matchSet set.contains haystack) first ∧
        GreatestIn (matchSet set.contains haystack) last ∧
        offsets.Pairwise (· < ·) ∧ (∀ o, o ∈ offsets ↔ o ∈ matchSet set.contains haystack) ∧
        (searcher.find haystack = .ok first ∧ searcher.rfind haystack = .ok last ∧
          (searcher.iter haystack).collect = .ok offsets ∧
          (searcher.iter haystack).count = .ok offsets.length) ∧
        searcher'.find haystack = .ok first ∧ searcher'.rfind haystack = .ok last ∧
          (searcher'.iter haystack).collect = .ok offsets ∧
          (searcher'.iter haystack).count = .ok offsets.length := by
  obtain ⟨searcher, hrun, h⟩ := fromByteSetWithBackend_spec set backend
  obtain ⟨searcher', hrun', h'⟩ := fromByteSetWithBackend_spec set backend'
  refine ⟨searcher, searcher', hrun, hrun', fun haystack => ⟨_, _, haystack.findIdxs set.contains,
    leastIn_findIdxs _ _, greatestIn_findIdxs _ _, List.pairwise_findIdxs, fun o => mem_findIdxs,
    ⟨?_, ?_, ?_, ?_⟩, ?_, ?_, ?_, ?_⟩⟩
  · exact find_eq h haystack
  · exact rfind_eq h haystack
  · exact collect_eq h haystack
  · exact count_eq h haystack
  · exact find_eq h' haystack
  · exact rfind_eq h' haystack
  · exact collect_eq h' haystack
  · exact count_eq h' haystack

end MemchrN.Searcher
