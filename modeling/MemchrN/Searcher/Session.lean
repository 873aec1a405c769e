import MemchrN.Framework.ObjectTable
import MemchrN.Framework.Observation
import MemchrN.Searcher.Agreement

namespace MemchrN

section Definitions

/-- The ways to make a searcher. A byte set comes out of any building steps. -/
inductive Construction
  | fromByteSet (set : Build) (backend : Backend)
  | new (bytes : List U8) (backend : Backend)
  | fromRange (range : RangeBounds) (backend : Backend)
  | fromNotByte (byte : U8) (backend : Backend)
  | fromIter (items : List U8)

def Construction.run [Target] [Host] : Construction → Exec Searcher
  | fromByteSet set backend => Searcher.fromByteSetWithBackend set.run backend
  | new bytes backend => Searcher.newWithBackend bytes backend
  | fromRange range backend => Searcher.fromRangeWithBackend range backend
  | fromNotByte byte backend => pure (Searcher.fromNotByteWithBackend byte backend)
  | fromIter items => Searcher.fromIter items

/-- The same construction with its backend replaced; `FromIterator` leaves no choice. -/
def Construction.withBackend (choose : Backend → Backend) : Construction → Construction
  | fromByteSet set backend => fromByteSet set (choose backend)
  | new bytes backend => new bytes (choose backend)
  | fromRange range backend => fromRange range (choose backend)
  | fromNotByte byte backend => fromNotByte byte (choose backend)
  | fromIter items => fromIter items

inductive Reply
  | done
  | offset (found : Option ℕ)
  | total (n : ℕ)
  | offsets (found : List ℕ)
  deriving DecidableEq, Repr

def Reply.ofAnswer : Answer → Reply
  | none => done
  | some found => offset found

inductive FinderCall
  | find (haystack : List U8)
  | rfind (haystack : List U8)

def Searcher.answer (finder : Searcher) : FinderCall → Exec (Reply × Searcher)
  | .find haystack => do
    let found ← finder.find haystack
    return (.offset found, finder)
  | .rfind haystack => do
    let found ← finder.rfind haystack
    return (.offset found, finder)

/-- The calls whose answers are offsets or their number. `count` and `collect` consume an iterator;
a session calls them on a clone. `size_hint` and the text of an iterator are left out: they show how
far its scan has gone. -/
inductive IterCall
  | perform (op : Operation)
  | count
  | collect

def Iter.answer (it : Iter) : IterCall → Exec (Reply × Iter)
  | .perform op => do
    let (answer, it) ← it.perform op
    return (.ofAnswer answer, it)
  | .count => do
    let total ← it.count
    return (.total total, it)
  | .collect => do
    let found ← it.collect
    return (.offsets found, it)

/-- What a client may do next. Objects are known by the order they were made in. -/
inductive Call
  | make (how : Construction)
  | onFinder (finder : ℕ) (call : FinderCall)
  | iter (finder : ℕ) (haystack : List U8)
  | clone (iter : ℕ)
  | onIter (iter : ℕ) (call : IterCall)

def Call.withBackend (choose : Backend → Backend) : Call → Call
  | make how => make (how.withBackend choose)
  | call => call

/-- A client's searchers and iterators, all of them live at once. -/
structure Session where
  finders : List Searcher
  iters : List Iter

namespace Session

def start : Session := ⟨[], []⟩

/-- One call; `none` answers a call on an object that was never made. -/
def perform [Target] [Host] (session : Session) : Call → Exec (Option Reply × Session)
  | .make how => do
    let finder ← how.run
    return (some .done, { session with finders := session.finders ++ [finder] })
  | .onFinder handle call => do
    let (reply, finders) ← onHandle Searcher.answer session.finders handle call
    return (reply, { session with finders := finders })
  | .iter handle haystack =>
    match session.finders[handle]? with
    | none => pure (none, session)
    | some finder =>
      pure (some .done, { session with iters := session.iters ++ [finder.iter haystack] })
  | .clone handle =>
    match session.iters[handle]? with
    | none => pure (none, session)
    | some it => pure (some .done, { session with iters := session.iters ++ [it] })
  | .onIter handle call => do
    let (reply, iters) ← onHandle Iter.answer session.iters handle call
    return (reply, { session with iters := iters })

end Session

end Definitions

section Ideal

/-- The bytes to search for, in the terms of sets alone. -/
def Construction.denote : Construction → Set U8
  | fromByteSet set _ => set.denote
  | new bytes _ => {b | b ∈ bytes}
  | fromRange range _ => {b | range.contains b = true}
  | fromNotByte byte _ => {byte}ᶜ
  | fromIter items => {b | b ∈ items}

open Classical in
/-- The offsets of the bytes in `S`, in order. -/
noncomputable def offsetsOf (S : Set U8) (haystack : List U8) : List ℕ :=
  haystack.findIdxs fun b => decide (b ∈ S)

noncomputable def FinderCall.onSet (S : Set U8) : FinderCall → Reply × Set U8
  | find haystack => (.offset (offsetsOf S haystack).head?, S)
  | rfind haystack => (.offset (offsetsOf S haystack).getLast?, S)

def IterCall.onStream (l : List ℕ) : IterCall → Reply × List ℕ
  | perform op => (.ofAnswer (op.onStream l).1, (op.onStream l).2)
  | count => (.total l.length, l)
  | collect => (.offsets l, l)

/-- The session without kernels, backends or batches: a searcher is a set of bytes, an iterator
the offsets still to come. -/
structure Ideal where
  sets : List (Set U8)
  streams : List (List ℕ)

namespace Ideal

def start : Ideal := ⟨[], []⟩

noncomputable def perform (ideal : Ideal) : Call → Option Reply × Ideal
  | .make how => (some .done, { ideal with sets := ideal.sets ++ [how.denote] })
  | .onFinder handle call =>
    let r := specOnHandle FinderCall.onSet ideal.sets handle call
    (r.1, { ideal with sets := r.2 })
  | .iter handle haystack =>
    match ideal.sets[handle]? with
    | none => (none, ideal)
    | some S => (some .done, { ideal with streams := ideal.streams ++ [offsetsOf S haystack] })
  | .clone handle =>
    match ideal.streams[handle]? with
    | none => (none, ideal)
    | some l => (some .done, { ideal with streams := ideal.streams ++ [l] })
  | .onIter handle call =>
    let r := specOnHandle IterCall.onStream ideal.streams handle call
    (r.1, { ideal with streams := r.2 })

end Ideal

/-- The searcher is exact for the bytes of `S`. -/
def Searcher.Finds [Target] (finder : Searcher) (S : Set U8) : Prop :=
  ∃ engine set, finder.Accepts engine set ∧ set.members = S

/-- The iterator belongs to an exact searcher, and has just these offsets still to yield. -/
def Iter.Holds (it : Iter) (l : List ℕ) : Prop :=
  ∃ finder haystack p, finder.search.Upholds p ∧ it.Valid finder haystack p ∧ it.pending p = l

/-- Object by object, the session stands for the ideal one. -/
structure Session.Shows [Target] (session : Session) (ideal : Ideal) : Prop where
  finders : List.Forall₂ Searcher.Finds session.finders ideal.sets
  iters : List.Forall₂ Iter.Holds session.iters ideal.streams

end Ideal

section Refinement

variable [Target]

theorem Construction.run_spec [Host] (how : Construction) :
    Returns how.run fun finder => finder.Finds how.denote := by
  cases how with
  | fromByteSet set backend =>
    apply returns_mono (Searcher.fromByteSetWithBackend_spec set.run backend)
    intro finder h
    exact ⟨_, _, h, set.members_run⟩
  | new bytes backend =>
    apply returns_mono (Searcher.fromByteSetWithBackend_spec (.fromBytes bytes) backend)
    intro finder h
    refine ⟨_, _, h, ?_⟩
    ext b
    simp [denote]
  | fromRange range backend =>
    apply returns_mono (Searcher.fromByteSetWithBackend_spec _ backend)
    intro finder h
    refine ⟨_, _, h, ?_⟩
    ext b
    rw [ByteSet.mem_members, contains_inclusiveRange]
    rfl
  | fromNotByte byte backend =>
    have hset (b : U8) : (ByteSet.full.remove byte).contains b = true ↔ b ≠ byte := by simp
    refine (returns_pure _ _).mpr ⟨backend.engine, _, Searcher.ofNotByte_accepts hset, ?_⟩
    ext b
    rw [ByteSet.mem_members, hset]
    rfl
  | fromIter items =>
    apply returns_mono (Searcher.fromByteSetWithBackend_spec (.fromIter items) .auto)
    intro finder h
    refine ⟨_, _, h, ?_⟩
    ext b
    simp [denote]

/-- An exact searcher finds what the naive scan for its set finds. -/
theorem Searcher.Finds.offsetsOf_eq {finder : Searcher} {S : Set U8} (h : finder.Finds S)
    (haystack : List U8) : ∃ engine set, finder.Accepts engine set ∧
      offsetsOf S haystack = haystack.findIdxs set.contains := by
  obtain ⟨engine, set, haccepts, rfl⟩ := h
  refine ⟨engine, set, haccepts, ?_⟩
  rw [offsetsOf]
  congr 1
  funext b
  simp

theorem Searcher.answer_simulates : Simulates answer FinderCall.onSet Finds := by
  intro finder S call h
  cases call with
  | find haystack =>
    obtain ⟨engine, set, haccepts, hoffsets⟩ := h.offsetsOf_eq haystack
    simp only [answer, FinderCall.onSet, find_eq haccepts, hoffsets]
    exact (returns_pure _ _).mpr ⟨rfl, h⟩
  | rfind haystack =>
    obtain ⟨engine, set, haccepts, hoffsets⟩ := h.offsetsOf_eq haystack
    simp only [answer, FinderCall.onSet, rfind_eq haccepts, hoffsets]
    exact (returns_pure _ _).mpr ⟨rfl, h⟩

omit [Target] in
/-- A fresh iterator of an exact plan has all the matches to yield. -/
theorem Searcher.iter_holds {finder : Searcher} {p : U8 → Bool} (hplan : finder.search.Upholds p)
    (haystack : List U8) : (finder.iter haystack).Holds (haystack.findIdxs p) :=
  ⟨finder, haystack, p, hplan, Iter.valid_iter finder haystack, Iter.pending_iter _ _⟩

theorem Searcher.Finds.iter_holds {finder : Searcher} {S : Set U8} (h : finder.Finds S)
    (haystack : List U8) : (finder.iter haystack).Holds (offsetsOf S haystack) := by
  obtain ⟨engine, set, haccepts, hoffsets⟩ := h.offsetsOf_eq haystack
  rw [hoffsets]
  exact Searcher.iter_holds haccepts.upholds haystack

omit [Target] in
theorem Iter.answer_simulates : Simulates answer IterCall.onStream Holds := by
  intro it l call h
  obtain ⟨finder, haystack, p, hplan, hvalid, rfl⟩ := h
  cases call with
  | perform op =>
    simp only [answer, IterCall.onStream, returns_bind, returns_pure]
    apply returns_mono (perform_stream hplan.nextMatchBatch haystack it _ op ⟨hvalid, rfl⟩)
    intro r hr
    obtain ⟨hanswer, hvalid', hpending⟩ := hr
    exact ⟨congrArg Reply.ofAnswer hanswer, finder, haystack, p, hplan, hvalid', hpending⟩
  | count =>
    simp only [answer, IterCall.onStream, returns_bind, returns_pure]
    apply returns_mono (count_spec hvalid hplan.countAll)
    intro total htotal
    exact ⟨congrArg Reply.total htotal, finder, haystack, p, hplan, hvalid, rfl⟩
  | collect =>
    simp only [answer, IterCall.onStream, returns_bind, returns_pure]
    apply returns_mono (collect_spec hplan.nextMatchBatch hvalid)
    intro found hfound
    exact ⟨congrArg Reply.offsets hfound, finder, haystack, p, hplan, hvalid, rfl⟩

namespace Session

theorem start_shows : start.Shows Ideal.start := ⟨.nil, .nil⟩

/-- Every call is answered as the ideal session answers it. -/
theorem perform_simulates [Host] : Simulates perform Ideal.perform Shows := by
  intro session ideal call h
  obtain ⟨hfinders, hiters⟩ := h
  cases call with
  | make how =>
    simp only [perform, Ideal.perform, returns_bind, returns_pure]
    apply returns_mono how.run_spec
    intro finder hfinds
    exact ⟨trivial, forall₂_push hfinders hfinds, hiters⟩
  | onFinder handle call =>
    simp only [perform, Ideal.perform, returns_bind, returns_pure]
    apply returns_mono (Searcher.answer_simulates.onHandle _ _ (handle, call) hfinders)
    intro r hr
    obtain ⟨hreply, hrest⟩ := hr
    exact ⟨hreply, hrest, hiters⟩
  | iter handle haystack =>
    rcases forall₂_lookup hfinders handle with ⟨hs, ht⟩ | ⟨finder, S, hs, ht, hfinds⟩
    · simp only [perform, Ideal.perform, hs, ht, returns_pure]
      exact ⟨trivial, hfinders, hiters⟩
    · simp only [perform, Ideal.perform, hs, ht, returns_pure]
      exact ⟨trivial, hfinders, forall₂_push hiters (hfinds.iter_holds haystack)⟩
  | clone handle =>
    rcases forall₂_lookup hiters handle with ⟨hs, ht⟩ | ⟨it, l, hs, ht, hholds⟩
    · simp only [perform, Ideal.perform, hs, ht, returns_pure]
      exact ⟨trivial, hfinders, hiters⟩
    · simp only [perform, Ideal.perform, hs, ht, returns_pure]
      exact ⟨trivial, hfinders, forall₂_push hiters hholds⟩
  | onIter handle call =>
    simp only [perform, Ideal.perform, returns_bind, returns_pure]
    apply returns_mono (Iter.answer_simulates.onHandle _ _ (handle, call) hiters)
    intro r hr
    obtain ⟨hreply, hrest⟩ := hr
    exact ⟨hreply, hfinders, hrest⟩

/-- Any calls on any number of searchers and iterators, in any order, are answered without a fault
and as the ideal session answers them. -/
theorem run_refines_ideal [Host] (calls : List Call) : ∃ replies session,
    runAll perform calls start = .ok (replies, session) ∧
      replies = (specAll Ideal.perform calls Ideal.start).1 ∧
      session.Shows (specAll Ideal.perform calls Ideal.start).2 := by
  obtain ⟨⟨replies, session⟩, hrun, hreplies, hshows⟩ := perform_simulates.runAll calls start_shows
  exact ⟨replies, session, hrun, hreplies, hshows⟩

omit [Target] in
theorem ideal_withBackend (choose : Backend → Backend) (ideal : Ideal) (call : Call) :
    ideal.perform (call.withBackend choose) = ideal.perform call := by
  cases call with
  | make how => cases how <;> rfl
  | _ => rfl

theorem perform_simulates_with [Host] (choose : Backend → Backend) :
    Simulates (fun session call => perform session (call.withBackend choose)) Ideal.perform
      Shows := by
  intro session ideal call h
  have hstep := perform_simulates session ideal (call.withBackend choose) h
  rwa [ideal_withBackend] at hstep

omit [Target] in
/-- Two sessions that differ in nothing but the processor they run on, the level found there and the
backends asked for get the same answers from `find` and `rfind`, and from `next`, `nth`,
`advance_to`, `count` and `collect` on their iterators. -/
theorem hosts_agree (target target' : Target) (host host' : Host)
    (choose choose' : Backend → Backend) (calls : List Call) : ∃ replies session session',
      runAll (fun session call => @perform target host session (call.withBackend choose)) calls
        start = .ok (replies, session) ∧
      runAll (fun session call => @perform target' host' session (call.withBackend choose')) calls
        start = .ok (replies, session') :=
  (@perform_simulates_with target host choose).agree (@perform_simulates_with target' host' choose')
    calls (@start_shows target) (@start_shows target')

end Session

end Refinement

end MemchrN
