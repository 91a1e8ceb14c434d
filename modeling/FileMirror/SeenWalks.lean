import Mathlib.Data.List.Basic
import Mathlib.Data.List.Count
import Mathlib.Logic.Relation

set_option autoImplicit false

/-!
# Walks that visit nothing twice

A walk through a graph keeps a list of what it has seen and goes no further from there. What it comes
to is stated between two such lists, so that walks one after another, and one within another, compose.
-/

namespace SeenWalks

variable {ι : Type*} {child : ι → ι → Prop} {good : ι → Prop} {seen seen' seen'' : List ι}
  {x y : ι}

structure Explored (child : ι → ι → Prop) (good : ι → Prop) (seen seen' : List ι) : Prop where
  grows : ∀ x ∈ seen, x ∈ seen'
  good : ∀ x ∈ seen', x ∉ seen → good x
  children : ∀ x ∈ seen', x ∉ seen → ∀ y, child x y → y ∈ seen'

theorem Explored.refl : Explored child good seen seen where
  grows _ hx := hx
  good _ hx hnot := absurd hx hnot
  children _ hx hnot := absurd hx hnot

theorem Explored.trans (h : Explored child good seen seen') (h' : Explored child good seen' seen'') :
    Explored child good seen seen'' where
  grows x hx := h'.grows x (h.grows x hx)
  good x hx hnot := by
    by_cases hbefore : x ∈ seen'
    · exact h.good x hbefore hnot
    · exact h'.good x hx hbefore
  children x hx hnot y hy := by
    by_cases hbefore : x ∈ seen'
    · exact h'.grows y (h.children x hbefore hnot y hy)
    · exact h'.children x hx hbefore y hy

theorem Explored.visit (hx : good x) (h : Explored child good (seen ++ [x]) seen')
    (hchildren : ∀ y, child x y → y ∈ seen') : Explored child good seen seen' where
  grows y hy := h.grows y (List.mem_append_left _ hy)
  good y hy hnot := by
    by_cases hyx : y = x
    · exact hyx ▸ hx
    · exact h.good y hy (by simp [hnot, hyx])
  children y hy hnot := by
    by_cases hyx : y = x
    · exact hyx ▸ hchildren
    · exact h.children y hy (by simp [hnot, hyx])

theorem Explored.reaches (h : Explored child good [] seen) (hx : x ∈ seen)
    (hreach : Relation.ReflTransGen child x y) : y ∈ seen ∧ good y := by
  induction hreach with
  | refl => exact ⟨hx, h.good x hx List.not_mem_nil⟩
  | @tail y z _ hyz ih =>
      have hz := h.children y ih.1 List.not_mem_nil z hyz
      exact ⟨hz, h.good z hz List.not_mem_nil⟩

variable [DecidableEq ι] {candidates : List ι}

def unseen (candidates seen : List ι) : ℕ := candidates.countP fun x => x ∉ seen

theorem unseen_le_length : unseen candidates seen ≤ candidates.length := List.countP_le_length

theorem unseen_mono (h : ∀ x ∈ seen, x ∈ seen') : unseen candidates seen' ≤ unseen candidates seen := by
  refine List.countP_mono_left fun x _ hx => ?_
  rw [decide_eq_true_iff] at hx ⊢
  exact fun hseen => hx (h x hseen)

theorem unseen_visit (hx : x ∈ candidates) (hnot : x ∉ seen) :
    unseen candidates (seen ++ [x]) < unseen candidates seen := by
  unfold unseen
  induction candidates with
  | nil => cases hx
  | cons c rest ih =>
      have hle : unseen rest (seen ++ [x]) ≤ unseen rest seen :=
        unseen_mono fun y hy => List.mem_append_left _ hy
      unfold unseen at hle
      rw [List.countP_cons, List.countP_cons]
      by_cases hc : c = x
      · have hafter : decide (c ∉ seen ++ [x]) = false := by simp [hc]
        have hbefore : decide (c ∉ seen) = true := by simpa [hc] using hnot
        rw [hafter, hbefore, if_pos rfl, if_neg Bool.false_ne_true]
        omega
      · have hlt := ih (by simpa [Ne.symm hc] using hx)
        have hsame : decide (c ∉ seen ++ [x]) = decide (c ∉ seen) := by simp [hc]
        rw [hsame]
        omega

end SeenWalks
