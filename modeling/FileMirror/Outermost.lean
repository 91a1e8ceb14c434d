import Mathlib.Data.List.Infix
import Mathlib.Data.List.Lex
import Mathlib.Data.List.Sort

set_option autoImplicit false

namespace FileMirror.Outermost

variable {α : Type*} [LinearOrder α]

theorem cons_le_cons_iff {a b : α} {l m : List α} : a :: l ≤ b :: m ↔ a < b ∨ a = b ∧ l ≤ m := by
  have hlt : a :: l < b :: m ↔ a < b ∨ a = b ∧ l < m := List.cons_lt_cons_iff
  rw [le_iff_lt_or_eq, le_iff_lt_or_eq, hlt, List.cons.injEq]
  constructor
  · rintro ((h | ⟨h, hlm⟩) | ⟨h, hlm⟩)
    · exact .inl h
    · exact .inr ⟨h, .inl hlm⟩
    · exact .inr ⟨h, .inr hlm⟩
  · rintro (h | ⟨h, hlm | hlm⟩)
    · exact .inl (.inl h)
    · exact .inl (.inr ⟨h, hlm⟩)
    · exact .inr ⟨h, hlm⟩

theorem prefix_of_between {r x p : List α} (hrx : r ≤ x) (hxp : x ≤ p) (hrp : r <+: p) :
    r <+: x := by
  induction r generalizing x p with
  | nil => exact List.nil_prefix
  | cons a r ih =>
      obtain ⟨b, p', rfl, hb⟩ : ∃ b p', p = b :: p' ∧ a = b ∧ r <+: p' := by
        cases p with
        | nil => exact absurd hrp (by simp)
        | cons b p' => exact ⟨b, p', rfl, List.cons_prefix_cons.mp hrp⟩
      obtain ⟨rfl, hr⟩ := hb
      cases x with
      | nil => exact absurd hrx (by simp)
      | cons c x =>
          obtain hac | ⟨rfl, hle⟩ := cons_le_cons_iff.mp hrx
          · obtain hca | ⟨rfl, _⟩ := cons_le_cons_iff.mp hxp
            · exact absurd (hac.trans hca) (lt_irrefl a)
            · exact absurd hac (lt_irrefl _)
          · obtain hca | ⟨_, hge⟩ := cons_le_cons_iff.mp hxp
            · exact absurd hca (lt_irrefl a)
            · exact List.cons_prefix_cons.mpr ⟨rfl, ih hle hge hr⟩

theorem nil_le (p : List α) : ([] : List α) ≤ p := by
  cases p with
  | nil => exact le_refl _
  | cons a p => exact le_of_lt (List.nil_lt_cons a p)

theorem prefix_le {r p : List α} (h : r <+: p) : r ≤ p := by
  induction r generalizing p with
  | nil => exact nil_le p
  | cons a r ih =>
      cases p with
      | nil => exact absurd h (by simp)
      | cons b p =>
          obtain ⟨rfl, hrp⟩ := List.cons_prefix_cons.mp h
          exact cons_le_cons_iff.mpr (.inr ⟨rfl, ih hrp⟩)

def prune (kept : Option (List α)) : List (List α) → List (List α)
  | [] => []
  | path :: paths =>
      if kept.any (fun k => k.isPrefixOf path) then prune kept paths
      else path :: prune (some path) paths

variable {kept : Option (List α)} {paths : List (List α)} {p : List α}

theorem prune_sublist : (prune kept paths).Sublist paths := by
  induction paths generalizing kept with
  | nil => exact .slnil
  | cons path paths ih =>
      unfold prune
      split_ifs
      · exact ih.cons path
      · exact ih.cons_cons path

theorem any_isPrefixOf {path : List α} :
    (kept.any fun k => k.isPrefixOf path) = true ↔ ∃ k, kept = some k ∧ k <+: path := by
  cases kept with
  | none => simp
  | some k => simp

theorem prune_covers (kept : Option (List α)) (h : p ∈ paths) :
    (∃ k, kept = some k ∧ k <+: p) ∨ ∃ k ∈ prune kept paths, k <+: p := by
  induction paths generalizing kept with
  | nil => cases h
  | cons path paths ih =>
      unfold prune
      split_ifs with hcovered
      · obtain rfl | h := List.mem_cons.mp h
        · exact .inl (any_isPrefixOf.mp hcovered)
        · exact ih kept h
      · right
        obtain rfl | h := List.mem_cons.mp h
        · exact ⟨p, List.mem_cons_self .., List.prefix_refl p⟩
        · obtain ⟨k, hk, hkp⟩ | ⟨k, hk, hkp⟩ := ih (some path) h
          · cases hk
            exact ⟨path, List.mem_cons_self .., hkp⟩
          · exact ⟨k, List.mem_cons_of_mem _ hk, hkp⟩

theorem prune_apart (kept : Option (List α)) (hsorted : paths.Pairwise (· ≤ ·))
    (hkept : ∀ k, kept = some k → ∀ x ∈ paths, k ≤ x) :
    (∀ k, kept = some k → ∀ x ∈ prune kept paths, ¬ k <+: x) ∧
      (prune kept paths).Pairwise fun x y => ¬ x <+: y := by
  induction paths generalizing kept with
  | nil => exact ⟨fun _ _ x hx => absurd hx List.not_mem_nil, .nil⟩
  | cons path paths ih =>
      obtain ⟨hhead, htail⟩ := List.pairwise_cons.mp hsorted
      have hrest : ∀ k, kept = some k → ∀ x ∈ paths, k ≤ x :=
        fun k hk x hx => hkept k hk x (List.mem_cons_of_mem _ hx)
      unfold prune
      split_ifs with hcovered
      · exact ih kept htail hrest
      · have hnext : ∀ k, some path = some k → ∀ x ∈ paths, k ≤ x := by
          rintro k ⟨⟩
          exact hhead
        obtain ⟨hnot, hapart⟩ := ih (some path) htail hnext
        refine ⟨?_, List.pairwise_cons.mpr ⟨hnot path rfl, hapart⟩⟩
        intro k hk x hx
        obtain rfl | hx := List.mem_cons.mp hx
        · exact fun hprefix => hcovered (any_isPrefixOf.mpr ⟨k, hk, hprefix⟩)
        · intro hprefix
          have hle : k ≤ path := hkept k hk path (List.mem_cons_self ..)
          have hbetween := prefix_of_between hle (hhead x (prune_sublist.subset hx)) hprefix
          exact hcovered (any_isPrefixOf.mpr ⟨k, hk, hbetween⟩)

def outermost (paths : List (List α)) : List (List α) :=
  prune none (paths.insertionSort (· ≤ ·))

theorem outermost_subset (h : p ∈ outermost paths) : p ∈ paths :=
  (List.mem_insertionSort _).mp (prune_sublist.subset h)

theorem outermost_covers (h : p ∈ paths) : ∃ k ∈ outermost paths, k <+: p := by
  obtain ⟨k, hk, _⟩ | hkept := prune_covers none ((List.mem_insertionSort (· ≤ ·)).mpr h)
  · cases hk
  · exact hkept

theorem outermost_sorted (paths : List (List α)) :
    (outermost paths).Pairwise fun x y => x ≤ y ∧ ¬ x <+: y := by
  have hsorted := List.pairwise_insertionSort (· ≤ ·) paths
  have hapart := (prune_apart none hsorted (fun k hk => by cases hk)).2
  exact List.Pairwise.and (hsorted.sublist prune_sublist) hapart

theorem outermost_apart {x y : List α} (hx : x ∈ outermost paths) (hy : y ∈ outermost paths)
    (h : x <+: y) : x = y := by
  let covers (x y : List α) : Prop := x ≠ y → ¬ x <+: y
  have hforward : (outermost paths).Pairwise covers :=
    (outermost_sorted paths).imp fun hxy _ => hxy.2
  have hback : (outermost paths).Pairwise (flip covers) := by
    refine (outermost_sorted paths).imp ?_
    intro x y hxy hne hprefix
    exact hne (le_antisymm (prefix_le hprefix) hxy.1)
  have hall := hforward.forall_of_forall_of_flip (fun x _ hne => absurd rfl hne) hback
  by_contra hne
  exact hall hx hy hne h

end FileMirror.Outermost
