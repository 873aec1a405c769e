import MemchrN.Bitset.Iter
import MemchrN.Searcher.Session

namespace MemchrN

section Definitions

/-- The call on a suffix that a call on the whole haystack comes to. -/
def IterCall.behind (c : ℕ) : IterCall → IterCall
  | perform (.advanceTo idx) => perform (.advanceTo (idx - c))
  | call => call

/-- Offsets in a suffix, counted from the start of the whole haystack. -/
def Reply.shift (c : ℕ) : Reply → Reply
  | offset found => offset (found.map (· + c))
  | offsets found => offsets (found.map (· + c))
  | reply => reply

/-- `(0..=u8::MAX).collect()`. -/
def allBytes : List U8 := (List.range 256).map (BitVec.ofNat 8)

/-- `members`: the bytes that a searcher for the set finds among all bytes. -/
def searchedMembers [Target] [Host] (set : ByteSet) : Exec (List U8) := do
  let finder ← Searcher.fromByteSetWithBackend set .auto
  let offsets ← (finder.iter allBytes).collect
  offsets.mapM fun offset =>
    match allBytes[offset]? with
    | some byte => pure byte
    | none => throw .outOfBounds

end Definitions

section Streams

variable {l : List ℕ} {c : ℕ}

theorem fromPos_eq_self (h : ∀ o ∈ l, c ≤ o) : fromPos l c = l :=
  List.filter_eq_self.mpr fun o ho => decide_eq_true (h o ho)

theorem fromPos_map_add (idx : ℕ) :
    fromPos (l.map (· + c)) idx = (fromPos l (idx - c)).map (· + c) := by
  rw [fromPos, fromPos, List.filter_map]
  congr 1
  apply List.filter_congr
  intro o _
  rw [Function.comp_apply, decide_eq_decide]
  omega

/-- Calls on shifted offsets are answered with shifted offsets. -/
theorem IterCall.onStream_map_add (call : IterCall) :
    (call.onStream (l.map (· + c))).1 = ((call.behind c).onStream l).1.shift c ∧
      (call.onStream (l.map (· + c))).2 = ((call.behind c).onStream l).2.map (· + c) := by
  cases call with
  | perform op =>
    cases op with
    | next => exact ⟨by simp [onStream, behind, Operation.onStream, Reply.ofAnswer, Reply.shift],
        by simp [onStream, behind, Operation.onStream]⟩
    | nth n => exact ⟨by simp [onStream, behind, Operation.onStream, Reply.ofAnswer, Reply.shift],
        by simp [onStream, behind, Operation.onStream]⟩
    | advanceTo idx => exact ⟨rfl, fromPos_map_add idx⟩
  | count => exact ⟨by simp [onStream, behind, Reply.shift], rfl⟩
  | collect => exact ⟨rfl, rfl⟩

end Streams

section Iterators

variable {it it' : Iter} {l : List ℕ}

theorem Iter.Holds.alike (h : it.Holds l) (h' : it'.Holds l) : Alike answer it it' :=
  answer_simulates.alike h h'

theorem Iter.Holds.collect (h : it.Holds l) : it.collect = .ok l := by
  obtain ⟨finder, haystack, p, hplan, hvalid, rfl⟩ := h
  exact returns_eq (collect_spec hplan.nextMatchBatch hvalid)

theorem Iter.Holds.advanceTo (h : it.Holds l) (idx : ℕ) :
    Returns (it.advanceTo idx) fun it' => it'.Holds (fromPos l idx) := by
  obtain ⟨finder, haystack, p, hplan, hvalid, rfl⟩ := h
  apply returns_mono (advanceTo_spec hvalid idx)
  intro it' h'
  obtain ⟨hvalid', hpending⟩ := h'
  exact ⟨finder, haystack, p, hplan, hvalid', hpending⟩

theorem Iter.next_strides : Simulates (fun it (_ : Unit) => next it) (strideFront 0) Holds := by
  intro it l _ h
  obtain ⟨finder, haystack, p, hplan, hvalid, rfl⟩ := h
  apply returns_mono (next_spec hplan.nextMatchBatch hvalid)
  intro r hr
  obtain ⟨hvalid', hitem, hpending⟩ := hr
  exact ⟨by rw [hitem, List.head?_eq_getElem?, strideFront],
    finder, haystack, p, hplan, hvalid', by rw [hpending, strideFront, List.drop_one]⟩

theorem Iter.nth_strides (k : ℕ) :
    Simulates (fun it (_ : Unit) => it.nth k) (strideFront k) Holds := by
  intro it l _ h
  obtain ⟨finder, haystack, p, hplan, hvalid, rfl⟩ := h
  apply returns_mono (nth_spec hplan.nextMatchBatch hvalid k)
  intro r hr
  obtain ⟨hvalid', hitem, hpending⟩ := hr
  exact ⟨hitem, finder, haystack, p, hplan, hvalid', hpending⟩

variable [Target] {finder : Searcher} {engine : Engine} {set : ByteSet}

/-- What any operations on a fresh iterator answer and leave. -/
theorem Searcher.Accepts.reaches (haccepts : finder.Accepts engine set) (haystack : List U8)
    (ops : List Operation) : Returns (runAll Iter.perform ops (finder.iter haystack)) fun r =>
      (items r.1 ++ fromPos (haystack.findIdxs set.contains)
        (specAll (fun c op => op.onCursor set.contains haystack c) ops 0).2).Sublist
          (haystack.findIdxs set.contains) ∧
      r.2.Holds (fromPos (haystack.findIdxs set.contains)
        (specAll (fun c op => op.onCursor set.contains haystack c) ops 0).2) := by
  apply returns_mono (Iter.runAll_stream haccepts.upholds.nextMatchBatch haystack ops)
  intro r hr
  obtain ⟨hanswers, hvalid, hpending⟩ := hr
  obtain ⟨-, hcursor⟩ := specAll_eq (R := fun l c => l = fromPos (haystack.findIdxs set.contains) c)
    (fun l c op hl => by
      obtain ⟨hanswer, hrest⟩ := onCursor_spec set.contains haystack c op
      rw [hl, hanswer, hrest]
      exact ⟨rfl, rfl⟩) ops (fromPos_zero (haystack.findIdxs set.contains)).symm
  constructor
  · rw [hanswers, ← hcursor]
    exact items_append_sublist ops _
  · exact ⟨finder, haystack, _, haccepts.upholds, hvalid, hpending.trans hcursor⟩

end Iterators

section AllBytes

theorem findIdxs_allBytes (p : U8 → Bool) :
    allBytes.findIdxs p = (List.range 256).filter fun n => p (BitVec.ofNat 8 n) := by
  refine List.Pairwise.eq_of_mem_iff List.pairwise_findIdxs (List.pairwise_lt_range.filter _) ?_
  intro n
  simp only [mem_findIdxs, matchSet, allBytes, List.getElem?_map, Set.mem_ofPred_eq,
    List.mem_filter, List.mem_range, Option.map_eq_some_iff]
  constructor
  · intro h
    obtain ⟨byte, ⟨k, hk, rfl⟩, hp⟩ := h
    obtain ⟨hlt, rfl⟩ := List.getElem?_eq_some_iff.mp hk
    rw [List.getElem_range] at hp
    exact ⟨by simpa using hlt, hp⟩
  · intro h
    obtain ⟨hn, hp⟩ := h
    exact ⟨_, ⟨n, List.getElem?_range hn, rfl⟩, hp⟩

/-- Each byte stands at its own offset among all of them, so that its offset is found exactly when
the byte is searched for. -/
theorem mem_offsetsOf_allBytes (S : Set U8) (byte : U8) :
    byte.toNat ∈ offsetsOf S allBytes ↔ byte ∈ S := by
  rw [offsetsOf, findIdxs_allBytes, List.mem_filter, List.mem_range]
  simp [byte.isLt]

theorem offsetsOf_allBytes_injective {S S' : Set U8}
    (h : offsetsOf S allBytes = offsetsOf S' allBytes) : S = S' := by
  ext byte
  rw [← mem_offsetsOf_allBytes, h, mem_offsetsOf_allBytes]

theorem mapM_ok {α β : Type} {f : α → Exec β} {g : α → β} {l : List α}
    (h : ∀ a ∈ l, f a = .ok (g a)) : l.mapM f = .ok (l.map g) := by
  induction l with
  | nil => rfl
  | cons a l ih =>
    rw [List.mapM_cons, h a List.mem_cons_self, ih fun b hb => h b (List.mem_cons_of_mem a hb)]
    rfl

end AllBytes

section Laws

variable [Target] [Host]

/-- Whatever was asked of an iterator before: advancing keeps exactly the matches at and after the
index; and as far as `next`, `nth`, `advance_to`, `count` and `collect` tell, it has no effect up to
just past the last offset yielded, exhausts the iterator from the haystack's length on, and twice is
once to the larger index. -/
theorem advance_laws (set : ByteSet) (backend : Backend) : ∃ finder,
    Searcher.fromByteSetWithBackend set backend = .ok finder ∧
    ∀ (haystack : List U8) (ops : List Operation), ∃ answers it,
      runAll Iter.perform ops (finder.iter haystack) = .ok (answers, it) ∧
      ∀ idx, ∃ it', it.advanceTo idx = .ok it' ∧
        (∃ rest, it.collect = .ok rest ∧ it'.collect = .ok (rest.filter (idx ≤ ·))) ∧
        (∀ o, (items answers).getLast? = some o → idx ≤ o + 1 → Alike Iter.answer it' it) ∧
        (haystack.length ≤ idx → Alike Iter.answer it' (finder.iter [])) ∧
        ∀ idx', ∃ twice once, it'.advanceTo idx' = .ok twice ∧
          it.advanceTo (max idx idx') = .ok once ∧ Alike Iter.answer twice once := by
  obtain ⟨finder, hrun, haccepts⟩ := Searcher.fromByteSetWithBackend_spec set backend
  refine ⟨finder, hrun, ?_⟩
  intro haystack ops
  obtain ⟨⟨answers, it⟩, hops, hsublist, hholds⟩ := haccepts.reaches haystack ops
  refine ⟨answers, it, hops, ?_⟩
  intro idx
  obtain ⟨it', hadvance, hholds'⟩ := hholds.advanceTo idx
  refine ⟨it', hadvance, ⟨_, hholds.collect, hholds'.collect⟩, ?_, ?_, ?_⟩
  · intro o ho hidx
    have hsorted : (items answers ++ _).Pairwise (· < ·) := List.pairwise_findIdxs.sublist hsublist
    have hbefore := (List.pairwise_append.mp hsorted).2.2 o (List.mem_of_getLast? ho)
    rw [fromPos_eq_self fun x hx => hidx.trans (hbefore x hx)] at hholds'
    exact hholds'.alike hholds
  · intro hidx
    rw [fromPos_fromPos, fromPos_eq_nil] at hholds'
    · exact hholds'.alike (Searcher.iter_holds haccepts.upholds [])
    · intro o ho
      exact (clearFrom_length _ _ o (mem_findIdxs.mp ho)).trans_le (hidx.trans (le_max_right _ _))
  · intro idx'
    obtain ⟨twice, htwice, htwiceHolds⟩ := hholds'.advanceTo idx'
    obtain ⟨once, honce, honceHolds⟩ := hholds.advanceTo (max idx idx')
    rw [fromPos_fromPos] at htwiceHolds
    exact ⟨twice, once, htwice, honce, htwiceHolds.alike honceHolds⟩

/-- `nth` with the same argument over and over takes every `step + 1`-th of the matches to come, and
leaves an iterator that answers `next`, `nth`, `advance_to`, `count` and `collect` as it does after
as many calls of `next`. -/
theorem nth_takes_strides (set : ByteSet) (backend : Backend) : ∃ finder,
    Searcher.fromByteSetWithBackend set backend = .ok finder ∧
    ∀ (haystack : List U8) (ops : List Operation), ∃ answers it rest,
      runAll Iter.perform ops (finder.iter haystack) = .ok (answers, it) ∧ it.collect = .ok rest ∧
      ∀ step calls, ∃ strided single,
        callAll (fun it => it.nth step) calls it =
          .ok ((List.range calls).map fun i => rest[(step + 1) * i + step]?, strided) ∧
        callAll Iter.next ((step + 1) * calls) it =
          .ok ((List.range ((step + 1) * calls)).map (rest[·]?), single) ∧
        strided.collect = .ok (rest.drop ((step + 1) * calls)) ∧
        Alike Iter.answer strided single := by
  obtain ⟨finder, hrun, haccepts⟩ := Searcher.fromByteSetWithBackend_spec set backend
  refine ⟨finder, hrun, ?_⟩
  intro haystack ops
  obtain ⟨⟨answers, it⟩, hops, -, hholds⟩ := haccepts.reaches haystack ops
  refine ⟨answers, it, _, hops, hholds.collect, ?_⟩
  intro step calls
  obtain ⟨⟨outs, strided⟩, hstrided, hitems, hstridedHolds⟩ :=
    (Iter.nth_strides step).strides calls hholds
  obtain ⟨⟨outs', single⟩, hsingle, hitems', hsingleHolds⟩ :=
    Iter.next_strides.strides ((step + 1) * calls) hholds
  simp only [Nat.zero_add, Nat.one_mul, Nat.add_zero] at hitems' hsingleHolds
  refine ⟨strided, single, ?_, ?_, hstridedHolds.collect, hstridedHolds.alike hsingleHolds⟩
  · rw [hstrided, ← hitems]
  · rw [hsingle, ← hitems']

/-- Whatever was asked of an iterator before, it answers every later `next`, `nth`, `advance_to`,
`count` and `collect` as a fresh iterator over the suffix from the scalar cursor on does, in offsets
of that suffix. -/
theorem reached_is_suffix (set : ByteSet) (backend : Backend) : ∃ finder,
    Searcher.fromByteSetWithBackend set backend = .ok finder ∧
    ∀ (haystack : List U8) (ops : List Operation), ∃ answers it,
      runAll Iter.perform ops (finder.iter haystack) = .ok (answers, it) ∧
      let c := (specAll (fun c op => op.onCursor set.contains haystack c) ops 0).2
      ∀ calls : List IterCall, ∃ replies r r',
        runAll Iter.answer (calls.map (IterCall.behind c)) (finder.iter (haystack.drop c)) =
          .ok (replies, r') ∧
        runAll Iter.answer calls it = .ok (replies.map (Reply.shift c), r) := by
  obtain ⟨finder, hrun, haccepts⟩ := Searcher.fromByteSetWithBackend_spec set backend
  refine ⟨finder, hrun, ?_⟩
  intro haystack ops
  obtain ⟨⟨answers, it⟩, hops, -, hholds⟩ := haccepts.reaches haystack ops
  refine ⟨answers, it, hops, ?_⟩
  intro c calls
  have hsuffix := Searcher.iter_holds haccepts.upholds (haystack.drop c)
  have hshift : fromPos (haystack.findIdxs set.contains) c =
      ((haystack.drop c).findIdxs set.contains).map (· + c) := by
    rw [findIdxs_drop, List.map_map]
    refine (List.map_id _).symm.trans (List.map_congr_left fun o ho => ?_)
    exact (Nat.sub_add_cancel (by simpa using (List.mem_filter.mp ho).2)).symm
  obtain ⟨replies, r, r', hleft, hright⟩ := Iter.answer_simulates.translate Iter.answer_simulates
    (Q := fun l l' => l = l'.map (· + c)) (fun l l' call hl => by
      rw [hl]
      exact call.onStream_map_add) calls hholds hsuffix hshift
  exact ⟨replies, r, r', hright, hleft⟩

/-- Searching all bytes for a set gives its members back, as its own iterator does. -/
theorem searchedMembers_spec (set : ByteSet) : searchedMembers set = .ok set.memberList := by
  obtain ⟨finder, hrun, haccepts⟩ := Searcher.fromByteSetWithBackend_spec set .auto
  have hcollect := (Searcher.iter_holds haccepts.upholds allBytes).collect
  rw [findIdxs_allBytes, set.filter_contains_range] at hcollect
  have hbyte : ∀ offset ∈ set.memberBits, (match allBytes[offset]? with
      | some byte => pure byte
      | none => throw Fault.outOfBounds : Exec U8) = .ok (BitVec.ofNat 8 offset) := by
    intro offset hoffset
    rw [allBytes, List.getElem?_map, List.getElem?_range (set.memberBits_lt hoffset)]
    rfl
  apply returns_eq
  simp only [searchedMembers, hrun, hcollect, returns_bind, returns_ok]
  rw [mapM_ok hbyte, returns_ok, ByteSet.memberList]

/-- The 256 bytes in order are a complete test. A searcher for a set finds its members in them, in
the order of the set's own iterator; and searchers made in any two ways find the same offsets in
them exactly when they search for the same bytes, and then answer `find` and `rfind`, and their
iterators `next`, `nth`, `advance_to`, `count` and `collect`, alike on every haystack. -/
theorem all_bytes_are_complete :
    (∀ set : ByteSet, ∃ members, searchedMembers set = .ok members ∧
      set.iter.collect = .ok members) ∧
    ∀ how how' : Construction, ∃ finder finder',
      how.run = .ok finder ∧ how'.run = .ok finder' ∧
      ((finder.iter allBytes).collect = (finder'.iter allBytes).collect ↔
        how.denote = how'.denote) ∧
      (how.denote = how'.denote → ∀ haystack,
        finder.find haystack = finder'.find haystack ∧
        finder.rfind haystack = finder'.rfind haystack ∧
        Alike Iter.answer (finder.iter haystack) (finder'.iter haystack)) := by
  constructor
  · intro set
    exact ⟨_, searchedMembers_spec set, returns_eq (ByteSetIter.collect_spec set)⟩
  · intro how how'
    obtain ⟨finder, hrun, hfinds⟩ := how.run_spec
    obtain ⟨finder', hrun', hfinds'⟩ := how'.run_spec
    refine ⟨finder, finder', hrun, hrun', ?_, ?_⟩
    · rw [(hfinds.iter_holds allBytes).collect, (hfinds'.iter_holds allBytes).collect]
      constructor
      · intro h
        exact offsetsOf_allBytes_injective (Except.ok.inj h)
      · intro h
        rw [h]
    · intro hsame haystack
      rw [← hsame] at hfinds'
      obtain ⟨_, _, haccepts, hoffsets⟩ := hfinds.offsetsOf_eq haystack
      obtain ⟨_, _, haccepts', hoffsets'⟩ := hfinds'.offsetsOf_eq haystack
      refine ⟨?_, ?_, (hfinds.iter_holds haystack).alike (hfinds'.iter_holds haystack)⟩
      · rw [Searcher.find_eq haccepts, Searcher.find_eq haccepts', ← hoffsets, hoffsets']
      · rw [Searcher.rfind_eq haccepts, Searcher.rfind_eq haccepts', ← hoffsets, hoffsets']

end Laws

end MemchrN
