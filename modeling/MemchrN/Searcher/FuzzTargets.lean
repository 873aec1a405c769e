import MemchrN.Bitset.FromWords
import MemchrN.Searcher.Agreement

namespace MemchrN

section Definitions

/-- `scalar_offsets`: one byte after the other is tested. -/
def scalarOffsets (member : U8 → Bool) (haystack : List U8) : Exec (List ℕ) :=
  andThen
    (forEach (fun (it : U8 × ℕ) offsets =>
      pure (.next (if member it.1 then offsets ++ [it.2] else offsets))) haystack.zipIdx [])
    fun offsets => pure offsets

def backwardStep (finder : Searcher) (haystack : List U8) (offset stop : ℕ) :
    Exec (Flow Unit ℕ) := do
  let front ← Exec.sliceTo haystack stop
  let found ← finder.rfind front
  Exec.assert (found == some offset)
  return .next offset

/-- Searches from the end for the offsets expected, each time in front of the last one found. -/
def searchBackward (finder : Searcher) (haystack : List U8) (expected : List ℕ) : Exec Unit :=
  andThen (forEach (backwardStep finder haystack) expected.reverse haystack.length) fun stop => do
    let front ← Exec.sliceTo haystack stop
    let found ← finder.rfind front
    Exec.assert (found == none)

def forwardStep (finder : Searcher) (haystack : List U8) (offset start : ℕ) :
    Exec (Flow Unit ℕ) := do
  let rest ← Exec.sliceFrom haystack start
  let found ← finder.find rest
  let relative ← Exec.sub offset start
  Exec.assert (found == some relative)
  return .next (offset + 1)

/-- Searches from the front for the offsets expected, each time behind the last one found. -/
def searchForward (finder : Searcher) (haystack : List U8) (expected : List ℕ) : Exec Unit :=
  andThen (forEach (forwardStep finder haystack) expected 0) fun start => do
    let rest ← Exec.sliceFrom haystack start
    let found ← finder.find rest
    Exec.assert (found == none)

variable [Target] [Host]

/-- The target of `fuzzer.rs`. -/
def fuzzerTarget (allowSimd : Bool) (words : Vector U64 4) (haystack : List U8) : Exec Unit := do
  let byteSet ← ByteSet.byteSetFromWords words
  let backend := if allowSimd then Backend.auto else .swar
  let finder ← Searcher.fromByteSetWithBackend byteSet backend
  let expected ← scalarOffsets byteSet.contains haystack
  let offsets ← (finder.iter haystack).collect
  Exec.assert (offsets == expected)
  let total ← (finder.iter haystack).count
  Exec.assert (total == expected.length)
  let last ← finder.rfind haystack
  Exec.assert (last == expected.getLast?)
  searchBackward finder haystack expected
  searchForward finder haystack expected

/-- The operations of `memchr_n.rs`, with the arguments as they are drawn. -/
inductive FuzzOperation
  | next
  | nth (n : U8)
  | advanceTo (idx : U16)

/-- `haystack.len().saturating_add(2)`. -/
def advanceModulus (haystack : List U8) : ℕ := min (haystack.length + 2) (2 ^ usizeBits - 1)

/-- One operation on the iterator and on the scalar cursor, whose answers have to be equal. -/
def FuzzOperation.check (needle : U8) (haystack : List U8) (op : FuzzOperation) (s : Iter × ℕ) :
    Exec (Flow Unit (Iter × ℕ)) := do
  let (it, cursor) := s
  match op with
  | next =>
    let (expected, cursor) := scalarNext (· == needle) haystack cursor
    let (item, it) ← it.next
    Exec.assert (item == expected)
    return .next (it, cursor)
  | nth n =>
    let (expected, cursor) := scalarNth (· == needle) haystack n.toNat cursor
    let (item, it) ← it.nth n.toNat
    Exec.assert (item == expected)
    return .next (it, cursor)
  | advanceTo idx =>
    let idx := idx.toNat % advanceModulus haystack
    let it ← it.advanceTo idx
    return .next (it, max cursor idx)

/-- `loop { .. }` until the scalar cursor finds nothing more. -/
def checkRest (needle : U8) (haystack : List U8) : ℕ → Iter → ℕ → Exec Iter
  | 0, _, _ => throw .outOfFuel
  | fuel + 1, it, cursor => do
    let (expected, cursor) := scalarNext (· == needle) haystack cursor
    let (actual, it) ← it.next
    Exec.assert (actual == expected)
    if expected = none then return it
    checkRest needle haystack fuel it cursor

/-- The target of `memchr_n.rs`. -/
def memchrNTarget (needle : U8) (operations : List FuzzOperation) (haystack : List U8) :
    Exec Unit := do
  let finder ← Searcher.new [needle]
  andThen (forEach (FuzzOperation.check needle haystack) operations (finder.iter haystack, 0))
    fun (it, cursor) => do
      let it ← checkRest needle haystack (haystack.length + 1) it cursor
      let it ← it.advanceTo 0
      let (item, _) ← it.next
      Exec.assert (item == none)

end Definitions

theorem scalarOffsets_eq (member : U8 → Bool) (haystack : List U8) :
    scalarOffsets member haystack = .ok (haystack.findIdxs member) := by
  have hloop (xs : List U8) (k : ℕ) (offsets : List ℕ) :
      forEach (fun (it : U8 × ℕ) offsets =>
        pure (.next (if member it.1 then offsets ++ [it.2] else offsets) : Flow (List ℕ) (List ℕ)))
        (xs.zipIdx k) offsets = pure (.next (offsets ++ xs.findIdxs member k)) := by
    induction xs generalizing k offsets with
    | nil => simp [forEach]
    | cons byte xs ih =>
      rw [List.zipIdx_cons, forEach, pure_bind]
      refine (ih _ _).trans ?_
      rw [List.findIdxs_cons]
      split_ifs <;> simp
  rw [scalarOffsets, hloop]
  rfl

section Slices

variable {l : List ℕ} {a o : ℕ}

/-- In front of the last position before `a` lie the positions before it. -/
theorem filter_lt_of_append {front : List ℕ} (hl : l.Pairwise (· < ·))
    (h : l.filter (· < a) = front ++ [o]) : l.filter (· < o) = front := by
  have hsorted := hl.sublist (List.filter_sublist (p := fun x => decide (x < a)))
  have hoa : o < a := by
    have ho : o ∈ l.filter (· < a) := by simp [h]
    simpa using (List.mem_filter.mp ho).2
  have hnest : l.filter (· < o) = (l.filter (· < a)).filter (· < o) := by
    rw [List.filter_filter]
    apply List.filter_congr
    intro x _
    rw [Bool.eq_iff_iff]
    simp
    omega
  rw [h] at hsorted hnest
  have hfront := (List.pairwise_append.mp hsorted).2.2
  have hlast : [o].filter (· < o) = [] := by simp
  rw [hnest, List.filter_append, hlast, List.append_nil]
  exact List.filter_eq_self.mpr fun x hx => by simpa using hfront x hx o (by simp)

end Slices

section Searches

variable [Target] {finder : Searcher} {engine : Engine} {set : ByteSet}
  (haccepts : finder.Accepts engine set) (haystack : List U8)

include haccepts

/-- Each search takes the last of the offsets left in front. -/
theorem backwardLoop_spec (l : List ℕ) {stop : ℕ} (hstop : stop ≤ haystack.length)
    (hl : (haystack.findIdxs set.contains).filter (· < stop) = l) :
    Returns (forEach (backwardStep finder haystack) l.reverse stop)
      (Flow.Sat (fun _ => False) fun stop => stop ≤ haystack.length ∧
        (haystack.findIdxs set.contains).filter (· < stop) = []) := by
  induction l using List.reverseRecOn generalizing stop with
  | nil => exact (returns_pure _ _).mpr ⟨hstop, hl⟩
  | append_singleton front offset ih =>
    have hmem : offset ∈ haystack.findIdxs set.contains :=
      List.mem_of_mem_filter (hl ▸ List.mem_append_right front (List.mem_singleton_self offset))
    have hoffset := clearFrom_length _ _ offset (mem_findIdxs.mp hmem)
    have hstep : backwardStep finder haystack offset stop = .ok (.next offset) := by
      apply returns_eq
      simp only [backwardStep, returns_bind, Exec.returns_sliceTo, Searcher.rfind_eq haccepts,
        findIdxs_take, hl, List.getLast?_concat, returns_ok, Exec.returns_assert, returns_pure]
      simpa using hstop
    rw [List.reverse_append, List.reverse_singleton, List.singleton_append, forEach, hstep]
    exact ih hoffset.le (filter_lt_of_append List.pairwise_findIdxs hl)

theorem searchBackward_spec :
    searchBackward finder haystack (haystack.findIdxs set.contains) = .ok () := by
  have hall : (haystack.findIdxs set.contains).filter (· < haystack.length) =
      haystack.findIdxs set.contains :=
    List.filter_eq_self.mpr fun o ho => by simpa using clearFrom_length _ _ o (mem_findIdxs.mp ho)
  obtain ⟨stop, hrun, hstop, hnone⟩ :=
    returns_next (backwardLoop_spec haccepts haystack _ le_rfl hall)
  apply returns_eq
  simp only [searchBackward, hrun, returns_andThen, returns_ok, flow_sat_next, returns_bind,
    Exec.returns_sliceTo, Searcher.rfind_eq haccepts, findIdxs_take, hnone, Exec.returns_assert]
  simpa using hstop

theorem forwardLoop_spec (l : List ℕ) {start : ℕ} (hstart : start ≤ haystack.length)
    (hl : fromPos (haystack.findIdxs set.contains) start = l) :
    Returns (forEach (forwardStep finder haystack) l start)
      (Flow.Sat (fun _ => False) fun start => start ≤ haystack.length ∧
        fromPos (haystack.findIdxs set.contains) start = []) := by
  induction l generalizing start with
  | nil => exact (returns_pure _ _).mpr ⟨hstart, hl⟩
  | cons offset rest ih =>
    obtain ⟨hmem, hle⟩ := mem_fromPos.mp (hl ▸ List.mem_cons_self)
    have hoffset := clearFrom_length _ _ offset (mem_findIdxs.mp hmem)
    have hstep : forwardStep finder haystack offset start = .ok (.next (offset + 1)) := by
      apply returns_eq
      have hl' : (haystack.findIdxs set.contains).filter (start ≤ ·) = offset :: rest := hl
      simp only [forwardStep, returns_bind, Exec.returns_sliceFrom, Searcher.find_eq haccepts,
        findIdxs_drop, hl', List.map_cons, List.head?_cons, returns_ok, Exec.returns_sub,
        Exec.returns_assert, returns_pure]
      simpa using ⟨hstart, hle⟩
    rw [forEach, hstep]
    exact ih hoffset (fromPos_cons List.pairwise_findIdxs hl)

theorem searchForward_spec :
    searchForward finder haystack (haystack.findIdxs set.contains) = .ok () := by
  obtain ⟨start, hrun, hstart, hnone⟩ :=
    returns_next (forwardLoop_spec haccepts haystack _ (Nat.zero_le _) (fromPos_zero _))
  apply returns_eq
  have hnone' : (haystack.findIdxs set.contains).filter (start ≤ ·) = [] := hnone
  simp only [searchForward, hrun, returns_andThen, returns_ok, flow_sat_next, returns_bind,
    Exec.returns_sliceFrom, Searcher.find_eq haccepts, findIdxs_drop, hnone', Exec.returns_assert]
  simpa using hstart

end Searches

section Cursor

variable {needle : U8} {haystack : List U8} {finder : Searcher}

/-- The iterator has left to yield what the scalar cursor has. -/
def AtCursor (needle : U8) (haystack : List U8) (finder : Searcher) (it : Iter) (cursor : ℕ) : Prop :=
  it.Valid finder haystack (· == needle) ∧
    it.pending (· == needle) = fromPos (haystack.findIdxs (· == needle)) cursor

variable (hplan : finder.search.Upholds (· == needle))

include hplan

theorem FuzzOperation.check_spec (op : FuzzOperation) {s : Iter × ℕ}
    (h : AtCursor needle haystack finder s.1 s.2) :
    Returns (op.check needle haystack s)
      (Flow.Sat (fun _ => False) fun s => AtCursor needle haystack finder s.1 s.2) := by
  obtain ⟨it, cursor⟩ := s
  obtain ⟨hvalid, hpending⟩ := h
  simp only at hvalid hpending
  cases op with
  | next =>
    obtain ⟨hexpected, hrest⟩ := scalarNext_spec (· == needle) haystack cursor
    simp only [check, returns_bind, returns_pure, flow_sat_next, Exec.returns_assert]
    apply returns_mono (Iter.next_spec hplan.nextMatchBatch hvalid)
    intro r hr
    obtain ⟨hvalid', hitem, hpending'⟩ := hr
    rw [hpending, ← hexpected] at hitem
    rw [hpending, ← hrest] at hpending'
    exact ⟨beq_iff_eq.mpr hitem, hvalid', hpending'⟩
  | nth n =>
    obtain ⟨hexpected, hrest⟩ := scalarNth_spec (· == needle) haystack n.toNat cursor
    simp only [check, returns_bind, returns_pure, flow_sat_next, Exec.returns_assert]
    apply returns_mono (Iter.nth_spec hplan.nextMatchBatch hvalid n.toNat)
    intro r hr
    obtain ⟨hvalid', hitem, hpending'⟩ := hr
    rw [hpending, ← hexpected] at hitem
    rw [hpending, ← hrest] at hpending'
    exact ⟨beq_iff_eq.mpr hitem, hvalid', hpending'⟩
  | advanceTo idx =>
    simp only [check, returns_bind, returns_pure, flow_sat_next]
    apply returns_mono (Iter.advanceTo_spec hvalid _)
    intro it' h'
    obtain ⟨hvalid', hpending'⟩ := h'
    rw [hpending, fromPos_fromPos] at hpending'
    exact ⟨hvalid', hpending'⟩

/-- The loop ends at the first `None` of the scalar cursor, with nothing left in the iterator. -/
theorem checkRest_spec {fuel : ℕ} {it : Iter} {cursor : ℕ} (h : AtCursor needle haystack finder it cursor)
    (hfuel : (it.pending (· == needle)).length < fuel) :
    Returns (checkRest needle haystack fuel it cursor) fun it' =>
      it'.Valid finder haystack (· == needle) ∧ it'.pending (· == needle) = [] := by
  induction fuel generalizing it cursor with
  | zero => omega
  | succ fuel ih =>
    obtain ⟨hvalid, hpending⟩ := h
    obtain ⟨hexpected, hrest⟩ := scalarNext_spec (· == needle) haystack cursor
    simp only [checkRest, returns_bind, Exec.returns_assert, returns_ite, returns_pure]
    apply returns_mono (Iter.next_spec hplan.nextMatchBatch hvalid)
    intro r hr
    obtain ⟨hvalid', hitem, htail⟩ := hr
    have hcursor : r.2.pending (· == needle) =
        fromPos (haystack.findIdxs (· == needle)) (scalarNext (· == needle) haystack cursor).2 := by
      rw [htail, hpending, hrest]
    rw [hpending, ← hexpected] at hitem
    refine ⟨beq_iff_eq.mpr hitem, ?_, ?_⟩
    · intro hnone
      rw [hexpected, List.head?_eq_none_iff] at hnone
      exact ⟨hvalid', by rw [hcursor, hrest, hnone, List.tail_nil]⟩
    · intro hsome
      have hlen : 0 < (it.pending (· == needle)).length := by
        rw [hpending, List.length_pos_iff]
        intro hnil
        rw [hexpected, hnil] at hsome
        exact hsome rfl
      refine ih ⟨hvalid', hcursor⟩ ?_
      rw [htail, List.length_tail]
      omega

end Cursor

section Targets

variable [Target] [Host]

/-- No input makes the target of `fuzzer.rs` fail: neither an assertion nor an index, a slice or a
subtraction on the way. -/
theorem fuzzer_target_passes (allowSimd : Bool) (words : Vector U64 4) (haystack : List U8) :
    fuzzerTarget allowSimd words haystack = .ok () := by
  obtain ⟨byteSet, hset, -⟩ := ByteSet.byteSetFromWords_spec words
  obtain ⟨finder, hrun, haccepts⟩ := Searcher.fromByteSetWithBackend_spec byteSet
    (if allowSimd then .auto else .swar)
  have hback := searchBackward_spec haccepts haystack
  have hforward := searchForward_spec haccepts haystack
  apply returns_eq
  simp only [fuzzerTarget, returns_bind, hset, hrun, scalarOffsets_eq, returns_ok,
    Searcher.collect_eq haccepts, Searcher.count_eq haccepts, Searcher.rfind_eq haccepts, hback,
    hforward, Exec.returns_assert]
  simp

/-- No needle, operations and haystack make the target of `memchr_n.rs` fail: the iterator keeps to
the scalar cursor through all of them and to the end, and stays exhausted. -/
theorem memchr_n_target_passes (needle : U8) (operations : List FuzzOperation)
    (haystack : List U8) : memchrNTarget needle operations haystack = .ok () := by
  obtain ⟨finder, hrun, haccepts⟩ :=
    Searcher.fromByteSetWithBackend_spec (.fromBytes [needle]) .auto
  have hnew : Searcher.new [needle] = .ok finder := hrun
  have hplan : finder.search.Upholds (· == needle) := by
    have hbyte : (ByteSet.fromBytes [needle]).contains = (· == needle) := by
      funext b
      rw [ByteSet.contains_fromBytes, Bool.eq_iff_iff]
      simp
    exact hbyte ▸ haccepts.upholds
  have hstart : AtCursor needle haystack finder (finder.iter haystack) 0 :=
    ⟨Iter.valid_iter finder haystack, by rw [Iter.pending_iter, fromPos_zero]⟩
  have hloop : Returns
      (forEach (FuzzOperation.check needle haystack) operations (finder.iter haystack, 0))
      (Flow.Sat (fun _ : Unit => False) fun s => AtCursor needle haystack finder s.1 s.2) :=
    returns_forEach (fun _ (s : Iter × ℕ) => AtCursor needle haystack finder s.1 s.2) _ hstart
      fun i _ s hs => FuzzOperation.check_spec hplan operations[i] hs
  apply returns_eq
  simp only [memchrNTarget, hnew, returns_bind, returns_ok, returns_andThen]
  obtain ⟨⟨it, cursor⟩, hloop, hcursor⟩ := returns_next hloop
  rw [hloop, returns_ok, flow_sat_next]
  apply returns_mono (checkRest_spec hplan hcursor (Nat.lt_succ_of_le hcursor.1.length_le))
  intro it' h'
  obtain ⟨hvalid, hnil⟩ := h'
  apply returns_mono (Iter.advanceTo_spec hvalid 0)
  intro it'' h''
  obtain ⟨hvalid', hpending⟩ := h''
  rw [hnil] at hpending
  apply returns_mono (Iter.next_spec hplan.nextMatchBatch hvalid')
  intro r hr
  obtain ⟨-, hitem, -⟩ := hr
  rw [hpending] at hitem
  rw [hitem, Exec.returns_assert]
  exact ⟨rfl, trivial⟩

end Targets

end MemchrN
