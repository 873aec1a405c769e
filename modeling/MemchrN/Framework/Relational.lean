import MemchrN.Framework.Simulation

namespace MemchrN

variable {α β γ δ ρ ρ' σ σ' ι ω : Type}

/-- Two computations go in step: they return related values, or fail with the same fault. -/
inductive Lockstep (R : α → β → Prop) : Exec α → Exec β → Prop
  | ok {a : α} {b : β} (h : R a b) : Lockstep R (.ok a) (.ok b)
  | error (fault : Fault) : Lockstep R (.error fault) (.error fault)

/-- Both loops were left early, or neither. -/
inductive Flow.Both (P : ρ → ρ' → Prop) (Q : σ → σ' → Prop) : Flow ρ σ → Flow ρ' σ' → Prop
  | ret {r : ρ} {r' : ρ'} (h : P r r') : Both P Q (.ret r) (.ret r')
  | next {s : σ} {s' : σ'} (h : Q s s') : Both P Q (.next s) (.next s')

section Rules

variable {R : α → β → Prop} {S : γ → δ → Prop} {x : Exec α} {y : Exec β}

/-- What is done twice goes in step with itself. -/
theorem lockstep_self (x : Exec α) : Lockstep (· = ·) x x := by
  cases x with
  | ok a => exact .ok rfl
  | error fault => exact .error fault

theorem lockstep_bind {f : α → Exec γ} {g : β → Exec δ} (h : Lockstep R x y)
    (hnext : ∀ a b, R a b → Lockstep S (f a) (g b)) : Lockstep S (x >>= f) (y >>= g) := by
  cases h with
  | ok hab => exact hnext _ _ hab
  | error fault => exact .error fault

/-- The same step first on both sides. -/
theorem lockstep_seq {f : α → Exec γ} {g : α → Exec δ} (x : Exec α)
    (hnext : ∀ a, Lockstep S (f a) (g a)) : Lockstep S (x >>= f) (x >>= g) := by
  apply lockstep_bind (lockstep_self x)
  rintro a _ rfl
  exact hnext a

theorem lockstep_ite {c : Prop} [Decidable c] {x' : Exec α} {y' : Exec β} (h : Lockstep R x y)
    (h' : Lockstep R x' y') : Lockstep R (if c then x else x') (if c then y else y') := by
  split_ifs
  · exact h
  · exact h'

theorem lockstep_returns {a : α} (h : Lockstep R x y) (hx : x = .ok a) :
    Returns y fun b => R a b := by
  subst hx
  cases h with
  | ok hab => exact ⟨_, rfl, hab⟩

end Rules

section Loops

variable {P : ρ → ρ' → Prop} {Q : σ → σ' → Prop}

theorem lockstep_andThen {loop : Exec (Flow ρ σ)} {loop' : Exec (Flow ρ' σ')}
    {rest : σ → Exec ρ} {rest' : σ' → Exec ρ'} (h : Lockstep (Flow.Both P Q) loop loop')
    (hrest : ∀ s s', Q s s' → Lockstep P (rest s) (rest' s')) :
    Lockstep P (andThen loop rest) (andThen loop' rest') := by
  apply lockstep_bind h
  intro flow flow' hflow
  cases hflow with
  | ret hr => exact .ok hr
  | next hs => exact hrest _ _ hs

theorem lockstep_forEach {body : α → σ → Exec (Flow ρ σ)} {body' : α → σ' → Exec (Flow ρ' σ')}
    (hbody : ∀ a s s', Q s s' → Lockstep (Flow.Both P Q) (body a s) (body' a s')) (xs : List α)
    {s : σ} {s' : σ'} (hs : Q s s') :
    Lockstep (Flow.Both P Q) (forEach body xs s) (forEach body' xs s') := by
  induction xs generalizing s s' with
  | nil => exact .ok (.next hs)
  | cons a xs ih =>
    apply lockstep_bind (hbody a s s' hs)
    intro flow flow' hflow
    cases hflow with
    | ret hr => exact .ok (.ret hr)
    | next hs => exact ih hs

end Loops

/-- Machines whose steps go in step answer alike over whole runs, and stay related. -/
theorem lockstep_runAll {step : σ → ι → Exec (ω × σ)} {step' : σ' → ι → Exec (ω × σ')}
    {Q : σ → σ' → Prop} (hstep : ∀ op s s', Q s s' →
      Lockstep (fun r r' => r.1 = r'.1 ∧ Q r.2 r'.2) (step s op) (step' s' op))
    (ops : List ι) {s : σ} {s' : σ'} (hs : Q s s') :
    Lockstep (fun r r' => r.1 = r'.1 ∧ Q r.2 r'.2) (runAll step ops s) (runAll step' ops s') := by
  induction ops generalizing s s' with
  | nil => exact .ok ⟨rfl, hs⟩
  | cons op ops ih =>
    apply lockstep_bind (hstep op s s' hs)
    intro r r' hr
    obtain ⟨hout, hrest⟩ := hr
    apply lockstep_bind (ih hrest)
    intro outs outs' houts
    exact .ok ⟨by rw [hout, houts.1], houts.2⟩

end MemchrN
