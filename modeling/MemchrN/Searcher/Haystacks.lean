import MemchrN.Searcher.Laws

namespace MemchrN

section Definitions

/-- All that a searcher tells of a haystack, from the offsets it finds. -/
structure Searcher.Answers (finder : Searcher) (haystack : List U8) (found : List ℕ) : Prop where
  find_eq : finder.find haystack = .ok found.head?
  rfind_eq : finder.rfind haystack = .ok found.getLast?
  collect_eq : (finder.iter haystack).collect = .ok found
  count_eq : (finder.iter haystack).count = .ok found.length

/-- The offsets found in each piece, moved to where the piece starts. -/
def joinOffsets : List (List U8 × List ℕ) → List ℕ
  | [] => []
  | (piece, found) :: pieces => found ++ (joinOffsets pieces).map (· + piece.length)

/-- The bytes that `relabel` takes into a set. -/
def ByteSet.comap (set : ByteSet) (relabel : U8 → U8) : ByteSet :=
  .fromBytes (allBytes.filter fun byte => set.contains (relabel byte))

end Definitions

theorem mem_allBytes (byte : U8) : byte ∈ allBytes :=
  List.mem_map.mpr ⟨byte.toNat, List.mem_range.mpr byte.isLt, BitVec.ofNat_toNat _ _⟩

theorem ByteSet.contains_comap (set : ByteSet) (relabel : U8 → U8) (byte : U8) :
    (set.comap relabel).contains byte = set.contains (relabel byte) := by
  rw [comap, contains_fromBytes, Bool.eq_iff_iff, decide_eq_true_eq, List.mem_filter]
  exact and_iff_right (mem_allBytes byte)

section Answers

variable [Target] {finder : Searcher} {engine : Engine} {set : ByteSet}

/-- An exact searcher has one answer, that of the naive scan. -/
theorem Searcher.Accepts.answers_iff (haccepts : finder.Accepts engine set) {haystack : List U8}
    {found : List ℕ} :
    finder.Answers haystack found ↔ found = haystack.findIdxs set.contains := by
  constructor
  · intro h
    exact Except.ok.inj (h.collect_eq.symm.trans (Searcher.collect_eq haccepts haystack))
  · intro h
    subst h
    exact ⟨Searcher.find_eq haccepts haystack, Searcher.rfind_eq haccepts haystack,
      Searcher.collect_eq haccepts haystack, Searcher.count_eq haccepts haystack⟩

end Answers

/-- Piece after piece, what is found is what is found in all of them together. -/
theorem joinOffsets_eq (p : U8 → Bool) {pieces : List (List U8 × List ℕ)}
    (h : ∀ piece ∈ pieces, piece.2 = piece.1.findIdxs p) :
    joinOffsets pieces = (pieces.flatMap Prod.fst).findIdxs p := by
  induction pieces with
  | nil => rfl
  | cons piece pieces ih =>
    obtain ⟨hpiece, hpieces⟩ := List.forall_mem_cons.mp h
    rw [joinOffsets, ih hpieces, hpiece, List.flatMap_cons, List.findIdxs_append, Nat.zero_add,
      ← List.findIdxs_start]

/-- What a searcher finds in a haystack follows the haystack. Cut into pieces, which may be searched
with any backends, it is found piece by piece; from the back, it is found in mirrored order, each
search direction doing what the other one does; and renaming the bytes renames the set. -/
theorem haystack_laws [Target] [Host] (set : ByteSet) (backend : Backend) : ∃ finder,
    Searcher.fromByteSetWithBackend set backend = .ok finder ∧
    (∀ haystack, ∃ found, finder.Answers haystack found) ∧
    (∀ pieces : List (List U8 × List ℕ),
      (∀ piece ∈ pieces, ∃ backend' finder',
        Searcher.fromByteSetWithBackend set backend' = .ok finder' ∧
          finder'.Answers piece.1 piece.2) →
      finder.Answers (pieces.flatMap Prod.fst) (joinOffsets pieces)) ∧
    (∀ haystack found, finder.Answers haystack found →
      finder.Answers haystack.reverse (found.map (haystack.length - 1 - ·)).reverse) ∧
    ∀ (relabel : U8 → U8) (backend' : Backend), ∃ finder',
      Searcher.fromByteSetWithBackend (set.comap relabel) backend' = .ok finder' ∧
      ∀ haystack found,
        finder.Answers (haystack.map relabel) found ↔ finder'.Answers haystack found := by
  obtain ⟨finder, hrun, haccepts⟩ := Searcher.fromByteSetWithBackend_spec set backend
  refine ⟨finder, hrun, ?_, ?_, ?_, ?_⟩
  · intro haystack
    exact ⟨_, haccepts.answers_iff.mpr rfl⟩
  · intro pieces hpieces
    apply haccepts.answers_iff.mpr
    apply joinOffsets_eq
    intro piece hmem
    obtain ⟨backend', finder', hrun', hanswers⟩ := hpieces piece hmem
    obtain ⟨finder'', hrun'', haccepts'⟩ := Searcher.fromByteSetWithBackend_spec set backend'
    obtain rfl : finder' = finder'' := Except.ok.inj (hrun'.symm.trans hrun'')
    exact haccepts'.answers_iff.mp hanswers
  · intro haystack found hanswers
    apply haccepts.answers_iff.mpr
    rw [haccepts.answers_iff.mp hanswers, findIdxs_reverse]
  · intro relabel backend'
    obtain ⟨finder', hrun', haccepts'⟩ :=
      Searcher.fromByteSetWithBackend_spec (set.comap relabel) backend'
    have hset : (set.comap relabel).contains = set.contains ∘ relabel :=
      funext (set.contains_comap relabel)
    refine ⟨finder', hrun', ?_⟩
    intro haystack found
    rw [haccepts.answers_iff, haccepts'.answers_iff, List.findIdxs_map, hset]

end MemchrN
