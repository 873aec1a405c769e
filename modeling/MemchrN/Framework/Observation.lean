import MemchrN.Framework.Simulation

namespace MemchrN

variable {σ τ υ φ ι κ ω ν : Type}

/-- The states answer any operations of the machine alike. -/
def Alike (step : σ → ι → Exec (ω × σ)) (s s' : σ) : Prop :=
  ∀ ops, ∃ outs e e', runAll step ops s = .ok (outs, e) ∧ runAll step ops s' = .ok (outs, e')

section Agreement

variable {step : σ → ι → Exec (ω × σ)} {step' : υ → κ → Exec (ν × υ)} {spec : τ → ι → ω × τ}
  {spec' : φ → κ → ν × φ} {R : σ → τ → Prop} {R' : υ → φ → Prop} {s s' : σ} {t : τ}

/-- Two machines that simulate one specification give the same answers. -/
theorem Simulates.agree {step' : υ → ι → Exec (ω × υ)} {R' : υ → τ → Prop} {s' : υ}
    (h : Simulates step spec R) (h' : Simulates step' spec R') (ops : List ι) (hst : R s t)
    (hst' : R' s' t) : ∃ outs e e',
      MemchrN.runAll step ops s = .ok (outs, e) ∧ MemchrN.runAll step' ops s' = .ok (outs, e') := by
  obtain ⟨⟨outs, e⟩, hrun, houts, -⟩ := h.runAll ops hst
  obtain ⟨⟨outs', e'⟩, hrun', houts', -⟩ := h'.runAll ops hst'
  obtain rfl : outs = outs' := houts.trans houts'.symm
  exact ⟨outs, e, e', hrun, hrun'⟩

theorem Simulates.alike (h : Simulates step spec R) (hst : R s t) (hst' : R s' t) :
    Alike step s s' := fun ops => h.agree h ops hst hst'

/-- Behind a translation of operations and answers, the runs of one specification are those of
the other. -/
theorem specAll_translate {f : ι → κ} {g : ν → ω} {Q : τ → φ → Prop}
    (h : ∀ t u op, Q t u →
      (spec t op).1 = g (spec' u (f op)).1 ∧ Q (spec t op).2 (spec' u (f op)).2)
    (ops : List ι) {t : τ} {u : φ} (htu : Q t u) :
    (specAll spec ops t).1 = (specAll spec' (ops.map f) u).1.map g ∧
      Q (specAll spec ops t).2 (specAll spec' (ops.map f) u).2 := by
  induction ops generalizing t u with
  | nil => exact ⟨rfl, htu⟩
  | cons op ops ih =>
    obtain ⟨hout, hrel⟩ := h t u op htu
    obtain ⟨houts, hend⟩ := ih hrel
    exact ⟨by simp only [specAll, List.map_cons, hout, houts], hend⟩

/-- So are the runs of the machines that simulate them. -/
theorem Simulates.translate {f : ι → κ} {g : ν → ω} {Q : τ → φ → Prop} (h : Simulates step spec R)
    (h' : Simulates step' spec' R')
    (hq : ∀ t u op, Q t u →
      (spec t op).1 = g (spec' u (f op)).1 ∧ Q (spec t op).2 (spec' u (f op)).2)
    (ops : List ι) {s : σ} {s' : υ} {t : τ} {u : φ} (hst : R s t) (hst' : R' s' u) (htu : Q t u) :
    ∃ outs e e', MemchrN.runAll step ops s = .ok (outs.map g, e) ∧
      MemchrN.runAll step' (ops.map f) s' = .ok (outs, e') := by
  obtain ⟨⟨outs, e⟩, hrun, houts, -⟩ := h.runAll ops hst
  obtain ⟨⟨outs', e'⟩, hrun', houts', -⟩ := h'.runAll (ops.map f) hst'
  obtain ⟨htranslate, -⟩ := specAll_translate hq ops htu
  obtain rfl : outs = outs'.map g :=
    houts.trans (htranslate.trans (congrArg (List.map g) houts'.symm))
  exact ⟨outs', e, e', hrun, hrun'⟩

end Agreement

section Strides

variable {α : Type}

/-- Each call passes over `k` items and takes the next one. -/
def strideFront (k : ℕ) (l : List α) (_ : Unit) : Option α × List α := (l[k]?, l.drop (k + 1))

theorem specAll_strideFront (k n : ℕ) (l : List α) :
    specAll (strideFront k) (List.replicate n ()) l =
      ((List.range n).map (fun i => l[(k + 1) * i + k]?), l.drop ((k + 1) * n)) := by
  induction n generalizing l with
  | zero => rfl
  | succ n ih =>
    have hitems : (List.range n).map (fun i => (l.drop (k + 1))[(k + 1) * i + k]?) =
        (List.range n).map ((fun i => l[(k + 1) * i + k]?) ∘ Nat.succ) := by
      apply List.map_congr_left
      intro i _
      rw [List.getElem?_drop, Function.comp_apply, Nat.succ_eq_add_one]
      congr 1
      ring
    simp only [List.replicate_succ, specAll, strideFront, ih]
    rw [hitems, List.range_succ_eq_map, List.map_cons, List.map_map, List.drop_drop,
      Nat.mul_zero, Nat.zero_add, Nat.mul_succ, Nat.add_comm ((k + 1) * n)]

/-- The calls take every `k + 1`-th item of the stream. -/
theorem Simulates.strides {next : σ → Exec (Option α × σ)} {R : σ → List α → Prop} {k : ℕ} {s : σ}
    {l : List α} (h : Simulates (fun s (_ : Unit) => next s) (strideFront k) R) (n : ℕ)
    (hs : R s l) : Returns (callAll next n s) fun r =>
      r.1 = (List.range n).map (fun i => l[(k + 1) * i + k]?) ∧ R r.2 (l.drop ((k + 1) * n)) := by
  have hrun := h.runAll (List.replicate n ()) hs
  rwa [specAll_strideFront] at hrun

end Strides

end MemchrN
