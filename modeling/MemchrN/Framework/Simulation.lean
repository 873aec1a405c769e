import MemchrN.Framework.Exec

namespace MemchrN

variable {σ τ υ ι ω : Type}

/-- The answers to a list of operations, and the state they leave. -/
def runAll (step : σ → ι → Exec (ω × σ)) : List ι → σ → Exec (List ω × σ)
  | [], s => pure ([], s)
  | op :: ops, s => do
    let (out, s) ← step s op
    let (outs, s) ← runAll step ops s
    return (out :: outs, s)

/-- The same for a machine that cannot go wrong. -/
def specAll (step : τ → ι → ω × τ) : List ι → τ → List ω × τ
  | [], t => ([], t)
  | op :: ops, t =>
    ((step t op).1 :: (specAll step ops (step t op).2).1, (specAll step ops (step t op).2).2)

/-- Step by step, the machine answers as its specification does and stays related to it. -/
def Simulates (step : σ → ι → Exec (ω × σ)) (spec : τ → ι → ω × τ) (R : σ → τ → Prop) : Prop :=
  ∀ s t op, R s t → Returns (step s op) fun r => r.1 = (spec t op).1 ∧ R r.2 (spec t op).2

theorem Simulates.runAll {step : σ → ι → Exec (ω × σ)} {spec : τ → ι → ω × τ} {R : σ → τ → Prop}
    (h : Simulates step spec R) (ops : List ι) {s : σ} {t : τ} (hst : R s t) :
    Returns (runAll step ops s) fun r =>
      r.1 = (specAll spec ops t).1 ∧ R r.2 (specAll spec ops t).2 := by
  induction ops generalizing s t with
  | nil => exact (returns_pure _ _).mpr ⟨rfl, hst⟩
  | cons op ops ih =>
    simp only [MemchrN.runAll, specAll, returns_bind, returns_pure]
    apply returns_mono (h s t op hst)
    intro r hr
    obtain ⟨hout, hrel⟩ := hr
    apply returns_mono (ih hrel)
    intro outs hrest
    obtain ⟨houts, hend⟩ := hrest
    exact ⟨by rw [hout, houts], hend⟩

/-- Two specifications that agree step by step give the same answers. -/
theorem specAll_eq {spec : τ → ι → ω × τ} {spec' : υ → ι → ω × υ} {R : τ → υ → Prop}
    (h : ∀ t u op, R t u → (spec t op).1 = (spec' u op).1 ∧ R (spec t op).2 (spec' u op).2)
    (ops : List ι) {t : τ} {u : υ} (htu : R t u) :
    (specAll spec ops t).1 = (specAll spec' ops u).1 ∧
      R (specAll spec ops t).2 (specAll spec' ops u).2 := by
  induction ops generalizing t u with
  | nil => exact ⟨rfl, htu⟩
  | cons op ops ih =>
    obtain ⟨hout, hrel⟩ := h t u op htu
    obtain ⟨houts, hend⟩ := ih hrel
    exact ⟨by rw [specAll, specAll, hout, houts], hend⟩

section Streams

variable {α : Type}

/-- The answers to `n` calls of one operation. -/
def callAll (next : σ → Exec (ω × σ)) (n : ℕ) (s : σ) : Exec (List ω × σ) :=
  runAll (fun s (_ : Unit) => next s) (List.replicate n ()) s

/-- Calls until the first `None`, for at most `fuel` items. -/
def drain (next : σ → Exec (Option α × σ)) : ℕ → σ → Exec (List α)
  | 0, _ => throw .outOfFuel
  | fuel + 1, s => do
    let (item, s) ← next s
    match item with
    | none => return []
    | some item => return item :: (← drain next fuel s)

/-- The abstract stream: each call takes the head of the list, and `None` is final. -/
def popFront (l : List α) (_ : Unit) : Option α × List α := (l.head?, l.tail)

/-- The state hands out the items of a list, one a call. -/
def Streams (next : σ → Exec (Option α × σ)) (R : σ → List α → Prop) : Prop :=
  Simulates (fun s (_ : Unit) => next s) popFront R

theorem specAll_popFront (n : ℕ) (l : List α) :
    specAll popFront (List.replicate n ()) l = ((List.range n).map (l[·]?), l.drop n) := by
  induction n generalizing l with
  | zero => rfl
  | succ n ih =>
    have hitems : (List.range n).map (l.tail[·]?) = (List.range n).map ((l[·]?) ∘ Nat.succ) := by
      apply List.map_congr_left
      intro k _
      simp
    simp only [List.replicate_succ, specAll, popFront, ih]
    rw [hitems, List.range_succ_eq_map, List.map_cons, List.map_map, List.drop_tail,
      List.head?_eq_getElem?]

variable {next : σ → Exec (Option α × σ)} {R : σ → List α → Prop} {s : σ} {l : List α}

theorem Streams.callAll (h : Streams next R) (n : ℕ) (hs : R s l) :
    Returns (callAll next n s) fun r => r.1 = (List.range n).map (l[·]?) ∧ R r.2 (l.drop n) := by
  have hrun := Simulates.runAll h (List.replicate n ()) hs
  rwa [specAll_popFront] at hrun

theorem Streams.drain (h : Streams next R) {fuel : ℕ} (hfuel : l.length < fuel) (hs : R s l) :
    Returns (drain next fuel s) (· = l) := by
  induction fuel generalizing s l with
  | zero => omega
  | succ fuel ih =>
    rw [MemchrN.drain, returns_bind]
    apply returns_mono (h s l () hs)
    intro r hr
    obtain ⟨item, s'⟩ := r
    obtain ⟨hitem, hrel⟩ := hr
    cases l with
    | nil =>
      obtain rfl : item = none := hitem
      exact (returns_pure _ _).mpr rfl
    | cons a rest =>
      obtain rfl : item = some a := hitem
      rw [List.length_cons] at hfuel
      simp only [returns_bind, returns_pure, List.cons.injEq, true_and]
      exact ih (Nat.lt_of_succ_lt_succ hfuel) hrel

end Streams

end MemchrN
