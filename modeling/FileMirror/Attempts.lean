import Mathlib.Data.List.Basic

set_option autoImplicit false

/-!
# Attempts

Programs that change a state and may fail, the state then being what it is by that time. What holds of
a program is said by a precondition, what holds where it returns, and what holds where it fails.
-/

namespace Attempts

variable {ε σ α β : Type}

abbrev Attempt (ε σ α : Type) := EStateM ε σ α

def anyway (x : Attempt ε σ PUnit) : Attempt ε σ PUnit := fun s =>
  match x s with
  | .ok _ t => .ok ⟨⟩ t
  | .error _ t => .ok ⟨⟩ t

/-- The steps until one fails; then `late` says which of the others are done nevertheless. -/
def tryCollect (late : List α → List α) (f : α → Attempt ε σ PUnit) : List α → Attempt ε σ PUnit
  | [] => pure ⟨⟩
  | a :: rest => fun s =>
      match f a s with
      | .ok _ t => tryCollect late f rest t
      | .error e t =>
          match ((late rest).forM fun a => anyway (f a)) t with
          | .ok _ u => .error e u
          | .error _ u => .error e u

/-- `Q` is said of a program that returned, and `E` of one that failed. -/
def Ends (Q : α → σ → Prop) (E : σ → Prop) : EStateM.Result ε σ α → Prop
  | .ok a t => Q a t
  | .error _ t => E t

/-- From `P`, the program returns with `Q` or fails with `E`. -/
def Does (P : σ → Prop) (x : Attempt ε σ α) (Q : α → σ → Prop) (E : σ → Prop) : Prop :=
  ∀ s, P s → Ends Q E (x s)

variable {P P' : σ → Prop} {x : Attempt ε σ α} {f : α → Attempt ε σ β} {Q Q' : α → σ → Prop}
  {R : β → σ → Prop} {E E' : σ → Prop}

theorem Ends.weaken {r : EStateM.Result ε σ α} (h : Ends Q E r) (hQ : ∀ a t, Q a t → Q' a t)
    (hE : ∀ t, E t → E' t) : Ends Q' E' r := by
  cases r with
  | ok a t => exact hQ a t h
  | error e t => exact hE t h

theorem Does.weaken (h : Does P x Q E) (hP : ∀ s, P' s → P s) (hQ : ∀ a t, Q a t → Q' a t)
    (hE : ∀ t, E t → E' t) : Does P' x Q' E' :=
  fun s hs => (h s (hP s hs)).weaken hQ hE

theorem does_pure {a : α} (h : ∀ s, P s → Q a s) : Does P (pure a : Attempt ε σ α) Q E := h

theorem Does.bind (hx : Does P x Q E) (hf : ∀ a, Does (Q a) (f a) R E) : Does P (x >>= f) R E := by
  intro s hs
  have hends := hx s hs
  change Ends R E (EStateM.bind x f s)
  unfold EStateM.bind
  cases h : x s with
  | ok a t =>
      rw [h] at hends
      exact hf a t hends
  | error e t =>
      rw [h] at hends
      exact hends

variable {g : α → Attempt ε σ PUnit}

theorem does_forM (I : List α → σ → Prop) (l : List α)
    (hg : ∀ done a rest, l = done ++ a :: rest →
      Does (I done) (g a) (fun _ => I (done ++ [a])) E) :
    Does (I []) (l.forM g) (fun _ => I l) E := by
  suffices hfrom : ∀ rest done, l = done ++ rest → Does (I done) (rest.forM g) (fun _ => I l) E from
    hfrom l [] rfl
  intro rest
  induction rest with
  | nil =>
      intro done hl
      rw [List.append_nil] at hl
      exact does_pure fun s hs => hl ▸ hs
  | cons a rest ih =>
      intro done hl
      change Does (I done) (g a >>= fun _ => rest.forM g) _ E
      refine (hg done a rest hl).bind fun _ => ih (done ++ [a]) ?_
      rw [hl, List.append_assoc]
      rfl

theorem does_anyway {l : List α} (hg : ∀ a ∈ l, Does P (g a) (fun _ => P) P) :
    Does P (l.forM fun a => anyway (g a)) (fun _ => P) P := by
  refine does_forM (fun _ => P) l fun done a rest hl s hs => ?_
  have hends := hg a (by rw [hl]; exact List.mem_append_right _ List.mem_cons_self) s hs
  unfold anyway
  cases h : g a s with
  | ok _ t =>
      rw [h] at hends
      exact hends
  | error _ t =>
      rw [h] at hends
      exact hends

theorem does_tryCollect (I : List α → σ → Prop) (l : List α) {late : List α → List α}
    (hamong : ∀ rest, late rest ⊆ rest)
    (hg : ∀ done a rest, l = done ++ a :: rest →
      Does (I done) (g a) (fun _ => I (done ++ [a])) E)
    (hlate : ∀ a ∈ l, Does E (g a) (fun _ => E) E) :
    Does (I []) (tryCollect late g l) (fun _ => I l) E := by
  suffices hfrom : ∀ rest done, l = done ++ rest →
      Does (I done) (tryCollect late g rest) (fun _ => I l) E from hfrom l [] rfl
  intro rest
  induction rest with
  | nil =>
      intro done hl
      rw [List.append_nil] at hl
      exact does_pure fun s hs => hl ▸ hs
  | cons a rest ih =>
      intro done hl s hs
      have hends := hg done a rest hl s hs
      rw [tryCollect]
      dsimp only
      cases h : g a s with
      | ok _ t =>
          rw [h] at hends
          exact ih (done ++ [a]) (by rw [hl, List.append_assoc]; rfl) t hends
      | error e t =>
          rw [h] at hends
          have hothers : ∀ b ∈ late rest, Does E (g b) (fun _ => E) E := by
            intro b hb
            refine hlate b ?_
            rw [hl]
            exact List.mem_append_right _ (List.mem_cons_of_mem _ (hamong rest hb))
          have hafter := does_anyway hothers t hends
          dsimp only
          cases hrun : ((late rest).forM fun a => anyway (g a)) t with
          | ok _ u =>
              rw [hrun] at hafter
              exact hafter
          | error _ u =>
              rw [hrun] at hafter
              exact hafter

end Attempts
