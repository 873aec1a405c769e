import Mathlib

namespace MemchrN

/-- The ways a checked run can go wrong: a panic, or a broken promise to the optimizer. -/
inductive Fault
  | overflow
  | outOfBounds
  | unwrapNone
  | assertion
  | undefinedBehavior
  | outOfFuel
  deriving DecidableEq, Repr

/-- A run that either returns or stops at its first fault. -/
abbrev Exec := Except Fault

/-- What a loop body hands back: an early return from the function, or the next loop state. -/
inductive Flow (ρ σ : Type)
  | ret (r : ρ)
  | next (s : σ)

/-- Total correctness: the run returns without a fault, in a value satisfying `Q`. -/
def Returns {α : Type} (x : Exec α) (Q : α → Prop) : Prop := ∃ a, x = .ok a ∧ Q a

def Flow.Sat {ρ σ : Type} (P : ρ → Prop) (Q : σ → Prop) : Flow ρ σ → Prop
  | .ret r => P r
  | .next s => Q s

variable {α β ρ σ : Type}

@[simp] theorem flow_sat_ret (P : ρ → Prop) (Q : σ → Prop) (r : ρ) :
    Flow.Sat P Q (.ret r) ↔ P r := Iff.rfl

@[simp] theorem flow_sat_next (P : ρ → Prop) (Q : σ → Prop) (s : σ) :
    Flow.Sat P Q (.next s) ↔ Q s := Iff.rfl

@[simp] theorem returns_ok (a : α) (Q : α → Prop) : Returns (.ok a) Q ↔ Q a := by
  simp [Returns]

@[simp] theorem returns_pure (a : α) (Q : α → Prop) : Returns (pure a) Q ↔ Q a :=
  returns_ok a Q

@[simp] theorem returns_throw (e : Fault) (Q : α → Prop) : Returns (throw e) Q ↔ False := by
  simp [Returns, throw, throwThe, MonadExceptOf.throw]

@[simp] theorem returns_bind (x : Exec α) (f : α → Exec β) (Q : β → Prop) :
    Returns (x >>= f) Q ↔ Returns x fun a => Returns (f a) Q := by
  cases x with
  | error e => simp [Returns, bind, Except.bind]
  | ok a => simp [Returns, bind, Except.bind]

@[simp] theorem returns_map (x : Exec α) (f : α → β) (Q : β → Prop) :
    Returns (f <$> x) Q ↔ Returns x fun a => Q (f a) := by
  cases x with
  | error e => simp [Returns, Functor.map, Except.map]
  | ok a => simp [Returns, Functor.map, Except.map]

theorem returns_mono {x : Exec α} {P Q : α → Prop} (h : Returns x P) (hpq : ∀ a, P a → Q a) :
    Returns x Q := by
  obtain ⟨a, hx, ha⟩ := h
  exact ⟨a, hx, hpq a ha⟩

theorem returns_and {x : Exec α} {P Q : α → Prop} (h : Returns x P) (h' : Returns x Q) :
    Returns x fun a => P a ∧ Q a := by
  obtain ⟨a, hx, hp⟩ := h
  obtain ⟨a', hx', hq⟩ := h'
  obtain rfl : a = a' := Except.ok.inj (hx.symm.trans hx')
  exact ⟨a, hx, hp, hq⟩

theorem returns_eq {x : Exec α} {a : α} (h : Returns x fun b => b = a) : x = .ok a := by
  obtain ⟨b, hx, rfl⟩ := h
  exact hx

@[simp] theorem returns_ite (c : Prop) [Decidable c] (x y : Exec α) (Q : α → Prop) :
    Returns (if c then x else y) Q ↔ (c → Returns x Q) ∧ (¬c → Returns y Q) := by
  split_ifs with h <;> simp [h]

theorem flow_sat_mono {P P' : ρ → Prop} {Q Q' : σ → Prop} {f : Flow ρ σ}
    (h : f.Sat P Q) (hp : ∀ r, P r → P' r) (hq : ∀ s, Q s → Q' s) : f.Sat P' Q' := by
  cases f with
  | ret r => exact hp r h
  | next s => exact hq s h

/-- Only what is known of the next loop state changes. -/
theorem returns_flow_mono {x : Exec (Flow ρ σ)} {P : ρ → Prop} {Q Q' : σ → Prop}
    (h : Returns x (Flow.Sat P Q)) (hq : ∀ s, Q s → Q' s) : Returns x (Flow.Sat P Q') :=
  returns_mono h fun _ hf => flow_sat_mono hf (fun _ => id) hq

/-- A loop that cannot return early. -/
theorem returns_next {x : Exec (Flow ρ σ)} {Q : σ → Prop}
    (h : Returns x (Flow.Sat (fun _ => False) Q)) : ∃ s, x = .ok (.next s) ∧ Q s := by
  obtain ⟨f, hx, hf⟩ := h
  cases f with
  | ret r => exact hf.elim
  | next s => exact ⟨s, hx, hf⟩

/-- A `for` loop whose body may return early from the enclosing function. -/
def forEach (body : α → σ → Exec (Flow ρ σ)) : List α → σ → Exec (Flow ρ σ)
  | [], s => pure (.next s)
  | a :: as, s => do
    match ← body a s with
    | .ret r => pure (.ret r)
    | .next s' => forEach body as s'

/-- What follows a loop that was not left early. -/
def andThen (loop : Exec (Flow ρ σ)) (rest : σ → Exec ρ) : Exec ρ := do
  match ← loop with
  | .ret r => pure r
  | .next s => rest s

@[simp] theorem returns_andThen (loop : Exec (Flow ρ σ)) (rest : σ → Exec ρ) (Q : ρ → Prop) :
    Returns (andThen loop rest) Q ↔ Returns loop (Flow.Sat Q fun s => Returns (rest s) Q) := by
  rw [andThen, returns_bind]
  constructor <;> intro h <;> refine returns_mono h fun f hf => ?_
  all_goals cases f <;> simpa using hf

/-- Loop rule. The invariant is indexed by the number of elements already visited; an early
return must meet the postcondition. -/
theorem returns_forEach {body : α → σ → Exec (Flow ρ σ)} {xs : List α} {s : σ}
    (Inv : ℕ → σ → Prop) (P : ρ → Prop) (h0 : Inv 0 s)
    (step : ∀ i (h : i < xs.length) t, Inv i t →
      Returns (body xs[i] t) (Flow.Sat P (Inv (i + 1)))) :
    Returns (forEach body xs s) (Flow.Sat P (Inv xs.length)) := by
  induction xs generalizing s Inv with
  | nil => simpa [forEach] using h0
  | cons a as ih =>
    rw [forEach, returns_bind]
    apply returns_mono (step 0 (by simp) s h0)
    intro f hf
    cases f with
    | ret r => simpa using hf
    | next t =>
      exact ih (fun i => Inv (i + 1)) hf fun i hi u hu =>
        step (i + 1) (Nat.succ_lt_succ hi) u hu

/-- The same rule with an invariant of the elements visited. -/
theorem returns_forEach_take {body : α → σ → Exec (Flow ρ σ)} {xs : List α} {s : σ}
    (Inv : List α → σ → Prop) (P : ρ → Prop) (h0 : Inv [] s)
    (step : ∀ i (h : i < xs.length) t, Inv (xs.take i) t →
      Returns (body xs[i] t) (Flow.Sat P (Inv (xs.take (i + 1))))) :
    Returns (forEach body xs s) (Flow.Sat P (Inv xs)) := by
  have h := returns_forEach (fun i => Inv (xs.take i)) P h0 step
  rwa [List.take_length] at h

/-- `for i in 0..n`. -/
theorem returns_forEach_range {n : ℕ} {body : Fin n → σ → Exec (Flow ρ σ)} {s : σ}
    (Inv : ℕ → σ → Prop) (P : ρ → Prop) (h0 : Inv 0 s)
    (step : ∀ (i : Fin n) t, Inv i t → Returns (body i t) (Flow.Sat P (Inv (i + 1)))) :
    Returns (forEach body (List.finRange n) s) (Flow.Sat P (Inv n)) := by
  have h : Returns (forEach body (List.finRange n) s)
      (Flow.Sat P (Inv (List.finRange n).length)) := by
    apply returns_forEach Inv P h0
    intro i hi t ht
    have hn : i < n := by simpa using hi
    simpa using step ⟨i, hn⟩ t ht
  rwa [List.length_finRange] at h

/-- `if let [a] = xs { .. }`, with a body that may return early. -/
def ifLetOne (body : α → σ → Exec (Flow ρ σ)) : List α → σ → Exec (Flow ρ σ)
  | [a], s => body a s
  | _, s => pure (.next s)

@[simp] theorem ifLetOne_singleton (body : α → σ → Exec (Flow ρ σ)) (a : α) (s : σ) :
    ifLetOne body [a] s = body a s := rfl

theorem ifLetOne_eq_forEach (body : α → σ → Exec (Flow ρ σ)) {xs : List α} (h : xs.length ≤ 1)
    (s : σ) : ifLetOne body xs s = forEach body xs s := by
  match xs, h with
  | [], _ => rfl
  | [a], _ =>
    simp only [ifLetOne, forEach]
    cases body a s with
    | error e => rfl
    | ok f => cases f <;> rfl

theorem forEach_append (body : α → σ → Exec (Flow ρ σ)) (xs ys : List α) (s : σ) :
    forEach body (xs ++ ys) s = (do
      match ← forEach body xs s with
      | .ret r => pure (.ret r)
      | .next t => forEach body ys t) := by
  induction xs generalizing s with
  | nil => rfl
  | cons a as ih =>
    simp only [List.cons_append, forEach]
    cases body a s with
    | error e => rfl
    | ok f =>
      cases f with
      | ret r => rfl
      | next t => exact ih t

theorem forEach_map (f : β → α) (body : α → σ → Exec (Flow ρ σ)) (xs : List β) (s : σ) :
    forEach body (xs.map f) s = forEach (fun b => body (f b)) xs s := by
  induction xs generalizing s with
  | nil => rfl
  | cons b bs ih => simp only [List.map_cons, forEach, ih]

/-- `for a in xs { out.push(f(a)) }`. -/
theorem forEach_push (f : α → β) (xs : List α) (out : List β) :
    forEach (fun a out => pure (Flow.next (out ++ [f a]) : Flow ρ (List β))) xs out =
      pure (.next (out ++ xs.map f)) := by
  induction xs generalizing out with
  | nil => rw [forEach, List.map_nil, List.append_nil]
  | cons a as ih =>
    rw [forEach, pure_bind]
    exact (ih _).trans (by rw [List.append_assoc, List.singleton_append, List.map_cons])

/-- Two nested loops visit the pairs of the two indices in order. -/
theorem forEach_flatMap (f : α → List β) (body : α → β → σ → Exec (Flow ρ σ)) (xs : List α)
    (s : σ) :
    forEach (fun a => forEach (body a) (f a)) xs s =
      forEach (fun ab => body ab.1 ab.2) (xs.flatMap fun a => (f a).map (a, ·)) s := by
  induction xs generalizing s with
  | nil => rfl
  | cons a as ih =>
    rw [List.flatMap_cons, forEach_append, forEach_map, forEach]
    congr 1
    funext flow
    cases flow with
    | ret r => rfl
    | next t => exact ih t

namespace Exec

/-- Unsigned subtraction, a fault below zero. -/
def sub (a b : ℕ) : Exec ℕ := if b ≤ a then pure (a - b) else throw .overflow

/-- Addition in an unsigned type of `w` bits, a fault when the sum does not fit. -/
def add (w a b : ℕ) : Exec ℕ := if a + b < 2 ^ w then pure (a + b) else throw .overflow

def addWord {w : ℕ} (x y : BitVec w) : Exec (BitVec w) :=
  if x.toNat + y.toNat < 2 ^ w then pure (x + y) else throw .overflow

def subWord {w : ℕ} (x y : BitVec w) : Exec (BitVec w) :=
  if y.toNat ≤ x.toNat then pure (x - y) else throw .overflow

/-- Shifts by a computed amount; an amount of at least the width is a fault. -/
def shl {w : ℕ} (x : BitVec w) (k : ℕ) : Exec (BitVec w) :=
  if k < w then pure (x <<< k) else throw .overflow

def shr {w : ℕ} (x : BitVec w) (k : ℕ) : Exec (BitVec w) :=
  if k < w then pure (x >>> k) else throw .overflow

def debugAssert (c : Bool) : Exec Unit := if c then pure () else throw .assertion

/-- `assert!`. -/
def assert (c : Bool) : Exec Unit := if c then pure () else throw .assertion

def assertUnchecked (c : Bool) : Exec Unit := if c then pure () else throw .undefinedBehavior

def unwrap : Option α → Exec α
  | some a => pure a
  | none => throw .unwrapNone

/-- `v[i] = a`. -/
def setIndex {n : ℕ} (v : Vector α n) (i : ℕ) (a : α) : Exec (Vector α n) :=
  if h : i < n then pure (v.set i a h) else throw .outOfBounds

/-- `v[i] = f(v[i])`. -/
def updateIndex {n : ℕ} (v : Vector α n) (i : ℕ) (f : α → α) : Exec (Vector α n) :=
  if h : i < n then pure (v.set i (f v[i]) h) else throw .outOfBounds

variable {w a b k : ℕ} {x y : BitVec w}

@[simp] theorem returns_sub (Q : ℕ → Prop) : Returns (sub a b) Q ↔ b ≤ a ∧ Q (a - b) := by
  simp only [sub, returns_ite, returns_pure, returns_throw, imp_false, not_not]
  tauto

@[simp] theorem returns_add (Q : ℕ → Prop) :
    Returns (add w a b) Q ↔ a + b < 2 ^ w ∧ Q (a + b) := by
  simp only [add, returns_ite, returns_pure, returns_throw, imp_false, not_not]
  tauto

@[simp] theorem returns_addWord (Q : BitVec w → Prop) :
    Returns (addWord x y) Q ↔ x.toNat + y.toNat < 2 ^ w ∧ Q (x + y) := by
  simp only [addWord, returns_ite, returns_pure, returns_throw, imp_false, not_not]
  tauto

@[simp] theorem returns_subWord (Q : BitVec w → Prop) :
    Returns (subWord x y) Q ↔ y.toNat ≤ x.toNat ∧ Q (x - y) := by
  simp only [subWord, returns_ite, returns_pure, returns_throw, imp_false, not_not]
  tauto

@[simp] theorem returns_shl (Q : BitVec w → Prop) :
    Returns (shl x k) Q ↔ k < w ∧ Q (x <<< k) := by
  simp only [shl, returns_ite, returns_pure, returns_throw, imp_false, not_not]
  tauto

@[simp] theorem returns_shr (Q : BitVec w → Prop) :
    Returns (shr x k) Q ↔ k < w ∧ Q (x >>> k) := by
  simp only [shr, returns_ite, returns_pure, returns_throw, imp_false, not_not]
  tauto

@[simp] theorem returns_debugAssert (c : Bool) (Q : Unit → Prop) :
    Returns (debugAssert c) Q ↔ c = true ∧ Q () := by
  cases c <;> simp [debugAssert]

@[simp] theorem returns_assert (c : Bool) (Q : Unit → Prop) :
    Returns (assert c) Q ↔ c = true ∧ Q () := by
  cases c <;> simp [assert]

@[simp] theorem returns_assertUnchecked (c : Bool) (Q : Unit → Prop) :
    Returns (assertUnchecked c) Q ↔ c = true ∧ Q () := by
  cases c <;> simp [assertUnchecked]

@[simp] theorem returns_unwrap_some (v : α) (Q : α → Prop) :
    Returns (unwrap (some v)) Q ↔ Q v := by simp [unwrap]

@[simp] theorem returns_unwrap_none (Q : α → Prop) :
    Returns (unwrap none) Q ↔ False := by simp [unwrap]

end Exec

end MemchrN
