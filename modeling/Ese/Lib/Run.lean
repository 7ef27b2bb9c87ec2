import Mathlib.Order.Basic

/-!
# Runs of labelled transition relations

`Run step s as s'`: the steps labelled `as`, taken in order, lead from `s` to `s'`. The two rules
a verification uses: an invariant that every step keeps holds at the end of a run, and a relation
that every step keeps against a function on abstract states relates the end of a run to the fold
of that function over its labels.

`runM step s as` runs a partial step function that also returns an output, `runF` a total one. A
relation under which the partial function does a step of the total one, with the same output, makes
the run defined, with the outputs of the total run.
-/

namespace Ese

universe u v w

variable {σ : Type u} {α : Type v} {τ : Type w}

/-- The runs of a labelled transition relation. -/
inductive Run (step : α → σ → σ → Prop) : σ → List α → σ → Prop
  | refl (s : σ) : Run step s [] s
  | snoc {s t u : σ} {as : List α} {a : α} (h : Run step s as t) (hs : step a t u) :
      Run step s (as ++ [a]) u

namespace Run

variable {step : α → σ → σ → Prop} {s t u : σ} {as bs : List α} {a : α}

/-- What every step keeps, every run keeps. -/
theorem invariant {I : σ → Prop} (hI : ∀ a s t, I s → step a s t → I t) (h : Run step s as t)
    (hs : I s) : I t := by
  induction h with
  | refl => exact hs
  | snoc _ hstep ih => exact hI _ _ _ ih hstep

/-- A relation to abstract states that every step keeps holds at the end of a run, against the
abstract state the labels lead to. -/
theorem refines {R : σ → τ → Prop} {f : τ → α → τ}
    (hR : ∀ a s s' t, R s t → step a s s' → R s' (f t a)) {t₀ : τ} (h : Run step s as t)
    (hs : R s t₀) : R t (as.foldl f t₀) := by
  induction h with
  | refl => exact hs
  | snoc _ hstep ih =>
    rw [List.foldl_append]
    exact hR _ _ _ _ ih hstep

/-- A single step. -/
theorem single (h : step a s t) : Run step s [a] t := .snoc (.refl s) h

/-- A step before a run. -/
theorem cons (hs : step a s t) (h : Run step t as u) : Run step s (a :: as) u := by
  induction h with
  | refl => exact single hs
  | snoc _ hstep ih => exact .snoc ih hstep

/-- A run after a run. -/
theorem append (h : Run step s as t) (h' : Run step t bs u) : Run step s (as ++ bs) u := by
  induction h' with
  | refl => rwa [List.append_nil]
  | snoc _ hstep ih =>
    rw [← List.append_assoc]
    exact .snoc ih hstep

/-- A run of steps that are steps of another relation. -/
theorem imp {step' : α → σ → σ → Prop} (hs : ∀ a s t, step a s t → step' a s t)
    (h : Run step s as t) :
    Run step' s as t := by
  induction h with
  | refl => exact .refl _
  | snoc _ hstep ih => exact .snoc ih (hs _ _ _ hstep)

/-- A run of a partial step function. -/
theorem of_foldlM {f : σ → α → Option σ} (hf : ∀ a s t, f s a = some t → step a s t) (as : List α)
    {s t : σ}
    (h : as.foldlM f s = some t) : Run step s as t := by
  induction as generalizing s with
  | nil =>
    cases h
    exact .refl _
  | cons a as ih =>
    rw [List.foldlM_cons, Option.bind_eq_bind, Option.bind_eq_some_iff] at h
    obtain ⟨r, hstep, hrest⟩ := h
    exact cons (hf _ _ _ hstep) (ih hrest)

/-- A run of a partial step function whose end passes a test. -/
theorem exists_of_foldlM {f : σ → α → Option σ} (hf : ∀ a s t, f s a = some t → step a s t)
    {as : List α}
    {s : σ} {p : σ → Bool} (h : (as.foldlM f s).any p = true) : ∃ t, Run step s as t ∧
      p t = true := by
  cases hrun : as.foldlM f s with
  | none => rw [hrun] at h; cases h
  | some t => rw [hrun] at h; exact ⟨t, of_foldlM hf as hrun, h⟩

end Run

/-! ## Runs of step functions -/

section
variable {β : Type*}

/-- The run of a partial step function, with its outputs. -/
def runM (step : σ → α → Option (σ × β)) : σ → List α → Option (σ × List β)
  | s, [] => some (s, [])
  | s, a :: as =>
    match step s a with
    | none => none
    | some (s, b) =>
      match runM step s as with
      | none => none
      | some (s, bs) => some (s, b :: bs)

/-- The run of a total step function, with its outputs. -/
def runF (f : τ → α → τ × β) : τ → List α → τ × List β
  | t, [] => (t, [])
  | t, a :: as =>
    let (t, b) := f t a
    let (t, bs) := runF f t as
    (t, b :: bs)

/-- A run of the partial function does what the run of the total one does. -/
theorem runM_refines {step : σ → α → Option (σ × β)} {f : τ → α → τ × β} {R : σ → τ → Prop}
    (hR : ∀ a s t, R s t → ∃ s', step s a = some (s', (f t a).2) ∧ R s' (f t a).1) (as : List α) :
    ∀ {s : σ} {t : τ}, R s t → ∃ s', runM step s as = some (s', (runF f t as).2) ∧
      R s' (runF f t as).1 := by
  induction as with
  | nil => exact fun h => ⟨_, rfl, h⟩
  | cons a as ih =>
    intro s t h
    obtain ⟨s₁, hstep, h₁⟩ := hR a s t h
    obtain ⟨s₂, hrun, h₂⟩ := ih h₁
    refine ⟨s₂, ?_, h₂⟩
    simp only [runM, hstep, hrun]
    rfl

end

end Ese
