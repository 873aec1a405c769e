import MemchrN.Framework.Simulation

namespace MemchrN

variable {σ τ ι ω : Type}

/-- One operation on the object behind a handle. The other objects keep their state, and a handle
that names no object is answered `none`. -/
def onHandle (step : σ → ι → Exec (ω × σ)) (table : List σ) (handle : ℕ) (op : ι) :
    Exec (Option ω × List σ) :=
  match table[handle]? with
  | none => pure (none, table)
  | some s => do
    let (out, s) ← step s op
    return (some out, table.set handle s)

/-- The same for objects that cannot go wrong. -/
def specOnHandle (spec : τ → ι → ω × τ) (table : List τ) (handle : ℕ) (op : ι) :
    Option ω × List τ :=
  match table[handle]? with
  | none => (none, table)
  | some t => (some (spec t op).1, table.set handle (spec t op).2)

section Tables

variable {R : σ → τ → Prop} {table : List σ} {specs : List τ}

/-- A handle names an object in both tables or in neither. -/
theorem forall₂_lookup (h : List.Forall₂ R table specs) (handle : ℕ) :
    (table[handle]? = none ∧ specs[handle]? = none) ∨
      ∃ s t, table[handle]? = some s ∧ specs[handle]? = some t ∧ R s t := by
  induction h generalizing handle with
  | nil => exact .inl ⟨rfl, rfl⟩
  | cons hst _ ih =>
    cases handle with
    | zero => exact .inr ⟨_, _, rfl, rfl, hst⟩
    | succ handle => exact ih handle

theorem forall₂_set (h : List.Forall₂ R table specs) {s : σ} {t : τ} (hst : R s t) (handle : ℕ) :
    List.Forall₂ R (table.set handle s) (specs.set handle t) := by
  induction h generalizing handle with
  | nil => exact .nil
  | cons hhead htail ih =>
    cases handle with
    | zero => exact .cons hst htail
    | succ handle => exact .cons hhead (ih handle)

theorem forall₂_push (h : List.Forall₂ R table specs) {s : σ} {t : τ} (hst : R s t) :
    List.Forall₂ R (table ++ [s]) (specs ++ [t]) :=
  List.rel_append h (.cons hst .nil)

/-- Objects that simulate their specifications one by one do so in a table. -/
theorem Simulates.onHandle {step : σ → ι → Exec (ω × σ)} {spec : τ → ι → ω × τ}
    (h : Simulates step spec R) :
    Simulates (fun table (call : ℕ × ι) => onHandle step table call.1 call.2)
      (fun specs call => specOnHandle spec specs call.1 call.2) (List.Forall₂ R) := by
  intro table specs call htable
  obtain ⟨handle, op⟩ := call
  rcases forall₂_lookup htable handle with ⟨hs, ht⟩ | ⟨s, t, hs, ht, hst⟩
  · simp only [MemchrN.onHandle, specOnHandle, hs, ht, returns_pure]
    exact ⟨trivial, htable⟩
  · simp only [MemchrN.onHandle, specOnHandle, hs, ht, returns_bind, returns_pure]
    apply returns_mono (h s t op hst)
    intro r hr
    obtain ⟨hout, hrel⟩ := hr
    exact ⟨congrArg some hout, forall₂_set htable hrel handle⟩

end Tables

end MemchrN
