import Mathlib.Algebra.BigOperators.Group.List.Basic
import Mathlib.Algebra.GroupWithZero.Nat
import Mathlib.Data.List.Infix

set_option autoImplicit false

namespace ShortestPrefix

variable {α : Type*} {weight : α → ℕ} {need more cap : ℕ} {l chosen other : List α} {a : α}

def takeEnough (weight : α → ℕ) : ℕ → ℕ → List α → List α
  | _, _, [] => []
  | need, cap, a :: rest =>
      if need = 0 ∨ cap = 0 then [] else a :: takeEnough weight (need - weight a) (cap - 1) rest

def total (weight : α → ℕ) (l : List α) : ℕ := (l.map weight).sum

@[simp] theorem total_nil : total weight ([] : List α) = 0 := rfl

@[simp] theorem total_cons : total weight (a :: l) = weight a + total weight l := by
  simp [total]

theorem total_perm (h : l.Perm other) : total weight l = total weight other :=
  (h.map weight).sum_eq

/-- A beginning within the cap that suffices as far as it can, and no shorter one does. -/
structure Shortest (weight : α → ℕ) (need cap : ℕ) (l chosen : List α) : Prop where
  beginning : chosen <+: l
  capped : chosen.length ≤ cap
  enough : need ≤ total weight chosen ∨ chosen.length = cap ∨ chosen = l
  minimal : ∀ shorter, shorter <+: l → shorter.length < chosen.length →
    total weight shorter < need

theorem takeEnough_beginning : takeEnough weight need cap l <+: l := by
  induction l generalizing need cap with
  | nil => exact List.nil_prefix
  | cons a rest ih =>
      rw [takeEnough]
      split_ifs
      · exact List.nil_prefix
      · exact List.cons_prefix_cons.mpr ⟨rfl, ih⟩

theorem takeEnough_capped : (takeEnough weight need cap l).length ≤ cap := by
  induction l generalizing need cap with
  | nil => exact Nat.zero_le _
  | cons a rest ih =>
      rw [takeEnough]
      split_ifs with hstop
      · exact Nat.zero_le _
      · have hrest := @ih (need - weight a) (cap - 1)
        rw [List.length_cons]
        omega

theorem takeEnough_enough : need ≤ total weight (takeEnough weight need cap l) ∨
    (takeEnough weight need cap l).length = cap ∨ takeEnough weight need cap l = l := by
  induction l generalizing need cap with
  | nil => exact .inr (.inr rfl)
  | cons a rest ih =>
      rw [takeEnough]
      split_ifs with hstop
      · rcases hstop with hneed | hcap
        · exact .inl (by omega)
        · exact .inr (.inl hcap.symm)
      · rw [total_cons, List.length_cons, List.cons.injEq]
        rcases @ih (need - weight a) (cap - 1) with hneed | hcap | hall
        · exact .inl (by omega)
        · exact .inr (.inl (by omega))
        · exact .inr (.inr ⟨rfl, hall⟩)

theorem takeEnough_minimal {shorter : List α} (h : shorter <+: l)
    (hlength : shorter.length < (takeEnough weight need cap l).length) :
    total weight shorter < need := by
  induction l generalizing need cap shorter with
  | nil => exact absurd hlength (Nat.not_lt_zero _)
  | cons a rest ih =>
      rw [takeEnough] at hlength
      split_ifs at hlength with hstop
      · exact absurd hlength (Nat.not_lt_zero _)
      · cases shorter with
        | nil =>
            rw [total_nil]
            omega
        | cons b shorter =>
            obtain ⟨rfl, hrest⟩ := List.cons_prefix_cons.mp h
            rw [List.length_cons, List.length_cons] at hlength
            have hless := ih hrest (Nat.lt_of_succ_lt_succ hlength)
            rw [total_cons]
            omega

theorem shortest_takeEnough : Shortest weight need cap l (takeEnough weight need cap l) :=
  ⟨takeEnough_beginning, takeEnough_capped, takeEnough_enough, fun _ => takeEnough_minimal⟩

theorem Shortest.length_le (h : Shortest weight need cap l chosen)
    (h' : Shortest weight more cap l other) (hmore : need ≤ more) :
    chosen.length ≤ other.length := by
  by_contra hshorter
  rw [not_le] at hshorter
  have hless := h.minimal other h'.beginning hshorter
  have hcapped := h.capped
  rcases h'.enough with hneed | hcap | hall
  · omega
  · omega
  · have hlength := h.beginning.length_le
    rw [← hall] at hlength
    omega

end ShortestPrefix
