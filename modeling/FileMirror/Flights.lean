import Mathlib.Data.Finset.Basic
import Mathlib.Data.Finset.SDiff
import Mathlib.Data.Finset.Dedup
import Mathlib.Data.List.Basic
import Mathlib.Logic.Function.Basic

set_option autoImplicit false

namespace FileMirror.Flights

variable {κ α : Type*} {flight : κ → Option (List α)}
  {lost : List (List α)} {waiting : List α} {aloft : Finset α} {c : κ} {batch : List α} {a : α}

structure Tracked (flight : κ → Option (List α)) (lost : List (List α)) (waiting : List α)
    (aloft : Finset α) : Prop where
  carried : ∀ c batch, flight c = some batch → batch ≠ [] ∧ ∀ a ∈ batch, a ∈ aloft
  apart : ∀ c d batch other, flight c = some batch → flight d = some other → c ≠ d →
    batch.Disjoint other
  missing : ∀ batch ∈ lost, batch ≠ [] ∧ ∀ a ∈ batch, a ∈ aloft
  missingApart : ∀ batch ∈ lost, ∀ c other, flight c = some other → batch.Disjoint other
  grounded : ∀ a ∈ waiting, a ∉ aloft

theorem Tracked.start : Tracked (fun _ : κ => none) [] [] (∅ : Finset α) := by
  constructor <;> simp

theorem Tracked.join (h : Tracked flight lost waiting aloft) (ha : a ∉ aloft) :
    Tracked flight lost (waiting ++ [a]) aloft := by
  refine { h with grounded := ?_ }
  intro b hb
  rw [List.mem_append, List.mem_singleton] at hb
  obtain hb | rfl := hb
  · exact h.grounded b hb
  · exact ha

theorem Tracked.widen {wider : Finset α} (h : Tracked flight lost waiting aloft)
    (hsub : ∀ a ∈ aloft, a ∈ wider) : Tracked flight lost [] wider where
  carried := fun c batch hc =>
    ⟨(h.carried c batch hc).1, fun a ha => hsub a ((h.carried c batch hc).2 a ha)⟩
  apart := h.apart
  missing := fun batch hb =>
    ⟨(h.missing batch hb).1, fun a ha => hsub a ((h.missing batch hb).2 a ha)⟩
  missingApart := h.missingApart
  grounded := fun _ ha => absurd ha List.not_mem_nil

theorem Tracked.nothing_lost (h : Tracked flight lost waiting ∅) : lost = [] := by
  cases lost with
  | nil => rfl
  | cons batch rest =>
      obtain ⟨hne, haloft⟩ := h.missing batch (List.mem_cons_self ..)
      cases batch with
      | nil => exact absurd rfl hne
      | cons a batch => exact absurd (haloft a (List.mem_cons_self ..)) (Finset.notMem_empty a)

variable [DecidableEq κ]

private theorem update_elsewhere {d : κ} {other : List α}
    (hd : Function.update flight c none d = some other) : d ≠ c ∧ flight d = some other := by
  by_cases hdc : d = c
  · rw [hdc, Function.update_self] at hd
    cases hd
  · rw [Function.update_of_ne hdc] at hd
    exact ⟨hdc, hd⟩

theorem Tracked.drop (h : Tracked flight lost waiting aloft) :
    Tracked (Function.update flight c none) lost waiting aloft where
  carried := fun d other hd => h.carried d other (update_elsewhere hd).2
  apart := fun d e one other hd he =>
    h.apart d e one other (update_elsewhere hd).2 (update_elsewhere he).2
  missing := h.missing
  missingApart := fun one hone d other hd => h.missingApart one hone d other (update_elsewhere hd).2
  grounded := h.grounded

theorem Tracked.lose (h : Tracked flight lost waiting aloft) (hc : flight c = some batch) :
    Tracked (Function.update flight c none) (batch :: lost) waiting aloft := by
  constructor
  · intro d other hd
    exact h.carried d other (update_elsewhere hd).2
  · intro d e one other hd he hde
    exact h.apart d e one other (update_elsewhere hd).2 (update_elsewhere he).2 hde
  · intro other hother
    obtain rfl | hother := List.mem_cons.mp hother
    · exact h.carried c other hc
    · exact h.missing other hother
  · intro one hone d other hd
    obtain ⟨hdc, hd⟩ := update_elsewhere hd
    obtain rfl | hone := List.mem_cons.mp hone
    · exact h.apart c d one other hc hd hdc.symm
    · exact h.missingApart one hone d other hd
  · exact h.grounded

variable [DecidableEq α]

theorem Tracked.launch (h : Tracked flight lost waiting aloft) (hw : waiting ≠ []) :
    Tracked (Function.update flight c (some waiting)) lost [] (aloft ∪ waiting.toFinset) := by
  have hnew : ∀ {batch : List α}, (∀ a ∈ batch, a ∈ aloft) → waiting.Disjoint batch :=
    fun hbatch a ha hb => h.grounded a ha (hbatch a hb)
  constructor
  · intro d batch hd
    by_cases hdc : d = c
    · rw [hdc, Function.update_self, Option.some.injEq] at hd
      subst hd
      exact ⟨hw, fun a ha => Finset.mem_union_right _ (List.mem_toFinset.mpr ha)⟩
    · rw [Function.update_of_ne hdc] at hd
      obtain ⟨hne, haloft⟩ := h.carried d batch hd
      exact ⟨hne, fun a ha => Finset.mem_union_left _ (haloft a ha)⟩
  · intro d e batch other hd he hde
    by_cases hdc : d = c
    · have hec : e ≠ c := fun hec => hde (hdc.trans hec.symm)
      rw [hdc, Function.update_self, Option.some.injEq] at hd
      rw [Function.update_of_ne hec] at he
      subst hd
      exact hnew (h.carried e other he).2
    · rw [Function.update_of_ne hdc] at hd
      by_cases hec : e = c
      · rw [hec, Function.update_self, Option.some.injEq] at he
        subst he
        exact (hnew (h.carried d batch hd).2).symm
      · rw [Function.update_of_ne hec] at he
        exact h.apart d e batch other hd he hde
  · intro batch hbatch
    obtain ⟨hne, haloft⟩ := h.missing batch hbatch
    exact ⟨hne, fun a ha => Finset.mem_union_left _ (haloft a ha)⟩
  · intro batch hbatch d other hd
    by_cases hdc : d = c
    · rw [hdc, Function.update_self, Option.some.injEq] at hd
      subst hd
      exact (hnew (h.missing batch hbatch).2).symm
    · rw [Function.update_of_ne hdc] at hd
      exact h.missingApart batch hbatch d other hd
  · intro a ha
    cases ha

theorem Tracked.land (h : Tracked flight lost waiting aloft) (hc : flight c = some batch) :
    Tracked (Function.update flight c none) lost waiting (aloft \ batch.toFinset) := by
  have hstays : ∀ {other : List α}, batch.Disjoint other → (∀ a ∈ other, a ∈ aloft) →
      ∀ a ∈ other, a ∈ aloft \ batch.toFinset := by
    intro other hdisjoint haloft a ha
    rw [Finset.mem_sdiff, List.mem_toFinset]
    exact ⟨haloft a ha, fun hb => hdisjoint hb ha⟩
  constructor
  · intro d other hd
    obtain ⟨hdc, hd⟩ := update_elsewhere hd
    obtain ⟨hne, haloft⟩ := h.carried d other hd
    exact ⟨hne, hstays (h.apart c d batch other hc hd hdc.symm) haloft⟩
  · intro d e one other hd he hde
    obtain ⟨_, hd⟩ := update_elsewhere hd
    obtain ⟨_, he⟩ := update_elsewhere he
    exact h.apart d e one other hd he hde
  · intro other hother
    obtain ⟨hne, haloft⟩ := h.missing other hother
    exact ⟨hne, hstays (h.missingApart other hother c batch hc).symm haloft⟩
  · intro one hone d other hd
    exact h.missingApart one hone d other (update_elsewhere hd).2
  · intro a ha haloft
    exact h.grounded a ha (Finset.mem_sdiff.mp haloft).1

end FileMirror.Flights
