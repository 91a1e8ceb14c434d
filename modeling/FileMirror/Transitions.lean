import Mathlib.Data.List.Basic

set_option autoImplicit false

namespace FileMirror.Transitions

variable {σ α : Type*} {step : σ → α → Option σ} {guard : σ → α → Prop}
  {s t u : σ} {a : α} {as bs : List α}

/-- `Runs step guard s as t`: the labels `as` lead from `s` to `t`, each step meeting the guard
in the state before it. -/
inductive Runs (step : σ → α → Option σ) (guard : σ → α → Prop) : σ → List α → σ → Prop where
  | refl (s : σ) : Runs step guard s [] s
  | next {s u t : σ} {a : α} {as : List α} (hguard : guard s a) (hstep : step s a = some u)
      (tail : Runs step guard u as t) : Runs step guard s (a :: as) t

def Unguarded (_ : σ) (_ : α) : Prop := True

theorem Runs.append (h : Runs step guard s as t) (h' : Runs step guard t bs u) :
    Runs step guard s (as ++ bs) u := by
  induction h with
  | refl _ => exact h'
  | next hguard hstep _ ih => exact .next hguard hstep (ih h')

theorem Runs.invariant {I : σ → Prop} (h : Runs step guard s as t) (hs : I s)
    (hI : ∀ s a t, I s → guard s a → step s a = some t → I t) : I t := by
  induction h with
  | refl _ => exact hs
  | next hguard hstep _ ih => exact ih (hI _ _ _ hs hguard hstep)

theorem Runs.relates {R : σ → σ → Prop} (h : Runs step guard s as t) (hrefl : ∀ s, R s s)
    (htrans : ∀ {s t u}, R s t → R t u → R s u)
    (hstep : ∀ s a t, guard s a → step s a = some t → R s t) : R s t := by
  induction h with
  | refl s => exact hrefl s
  | next hguard hs _ ih => exact htrans (hstep _ _ _ hguard hs) ih

def execute (step : σ → α → Option σ) (s : σ) (as : List α) : Option σ := as.foldlM step s

def checked (check : σ → α → Bool) (step : σ → α → Option σ) (s : σ) (a : α) : Option σ :=
  if check s a then step s a else none

theorem checked_runs {check : σ → α → Bool} (hcheck : ∀ s a, check s a = true → guard s a)
    (h : execute (checked check step) s as = some t) : Runs step guard s as t := by
  induction as generalizing s with
  | nil =>
      cases h
      exact .refl _
  | cons a as ih =>
      simp only [execute, List.foldlM_cons, Option.bind_eq_bind, Option.bind_eq_some_iff] at h
      obtain ⟨u, hstep, hrest⟩ := h
      unfold checked at hstep
      split_ifs at hstep with ha
      exact .next (hcheck s a ha) hstep (ih hrest)

theorem execute_runs (h : execute step s as = some t) : Runs step Unguarded s as t := by
  have hstep : checked (fun _ _ => true) step = step := by
    funext s a
    simp only [checked, if_true]
  exact checked_runs (fun _ _ _ => trivial) (hstep ▸ h)

end FileMirror.Transitions
