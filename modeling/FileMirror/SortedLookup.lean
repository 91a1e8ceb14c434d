import Mathlib.Data.List.Sort

set_option autoImplicit false

namespace SortedLookup

section Sorting

variable {α κ : Type*} [LinearOrder κ] {key : α → κ} {l l' : List α}

def sortByKey (key : α → κ) (l : List α) : List α := l.insertionSort fun a b => key a ≤ key b

theorem sortByKey_perm : (sortByKey key l).Perm l := List.perm_insertionSort _ l

theorem mem_sortByKey {a : α} : a ∈ sortByKey key l ↔ a ∈ l := sortByKey_perm.mem_iff

theorem sortByKey_sorted : (sortByKey key l).Pairwise fun a b => key a ≤ key b := by
  have : Std.Total fun a b : α => key a ≤ key b := ⟨fun a b => le_total (key a) (key b)⟩
  have : IsTrans α fun a b => key a ≤ key b := ⟨fun _ _ _ => le_trans⟩
  exact List.pairwise_insertionSort (fun a b => key a ≤ key b) l

theorem sortByKey_increasing (h : (l.map key).Nodup) :
    (sortByKey key l).Pairwise fun a b => key a < key b := by
  have hdistinct : (sortByKey key l).Pairwise fun a b => key a ≠ key b :=
    List.pairwise_map.mp ((sortByKey_perm.map key).nodup_iff.mpr h)
  exact sortByKey_sorted.imp₂ (fun _ _ hle hne => lt_of_le_of_ne hle hne) hdistinct

theorem eq_of_increasing (hperm : l.Perm l') (h : l.Pairwise fun a b => key a < key b)
    (h' : l'.Pairwise fun a b => key a < key b) : l = l' :=
  hperm.eq_of_pairwise (fun _ _ _ _ hab hba => absurd hba (lt_asymm hab)) h h'

theorem sortByKey_congr (h : (l.map key).Nodup) (hperm : l.Perm l') :
    sortByKey key l = sortByKey key l' := by
  have h' : (l'.map key).Nodup := (hperm.map key).nodup_iff.mp h
  have hsorted : (sortByKey key l).Perm (sortByKey key l') :=
    sortByKey_perm.trans (hperm.trans sortByKey_perm.symm)
  exact eq_of_increasing hsorted (sortByKey_increasing h) (sortByKey_increasing h')

end Sorting

section Searching

variable {α : Type*} {cmp : α → Ordering} {l : List α} {a : α} {base size i : ℕ}

def narrow (cmp : α → Ordering) (l : List α) (base size : ℕ) : ℕ :=
  if 1 < size then
    let half := size / 2
    let next := if (l[base + half]?).map cmp = some .gt then base else base + half
    narrow cmp l next (size - half)
  else base
termination_by size

/-- `binary_search_by`: the place of an element, or the place where it would have to be. -/
def binarySearchBy (cmp : α → Ordering) (l : List α) : Except ℕ ℕ :=
  let base := narrow cmp l 0 l.length
  match l[base]? with
  | none => .error 0
  | some a =>
      match cmp a with
      | .eq => .ok base
      | .lt => .error (base + 1)
      | .gt => .error base

def Ascending (cmp : α → Ordering) (l : List α) : Prop :=
  l.Pairwise fun a b => cmp b = .gt ∨ cmp a = .lt

theorem narrow_eq (h : Ascending cmp l) (hi : l[i]? = some a) (ha : cmp a = .eq)
    (hlow : base ≤ i) (hhigh : i < base + size) (hend : base + size ≤ l.length) :
    narrow cmp l base size = i := by
  obtain ⟨hlen, rfl⟩ := List.getElem?_eq_some_iff.mp hi
  have hall := List.pairwise_iff_getElem.mp h
  fun_induction narrow cmp l base size with
  | case1 base size hsize half next ih =>
      have hhalf : half = size / 2 := rfl
      have hmid : base + half < l.length := by omega
      have hnext : next = if cmp l[base + half] = .gt then base else base + half := by
        simp only [next, List.getElem?_eq_getElem hmid, Option.map_some, Option.some.injEq,
          dite_eq_ite]
      by_cases hgreater : cmp l[base + half] = .gt
      · rw [if_pos hgreater] at hnext
        have hbefore : i < base + half := by
          by_contra hle
          obtain hlt | heq := Nat.lt_or_eq_of_le (Nat.not_lt.mp hle)
          · obtain hgt | hless := hall _ _ hmid hlen hlt
            · rw [ha] at hgt
              cases hgt
            · rw [hgreater] at hless
              cases hless
          · simp only [heq, ha, reduceCtorEq] at hgreater
        exact ih (by omega) (by omega) (by omega)
      · rw [if_neg hgreater] at hnext
        have hfrom : base + half ≤ i := by
          by_contra hlt
          obtain hgt | hless := hall _ _ hlen hmid (Nat.lt_of_not_le hlt)
          · exact hgreater hgt
          · rw [ha] at hless
            cases hless
        exact ih (by omega) (by omega) (by omega)
  | case2 base size hsize => omega

theorem binarySearchBy_eq_ok (h : Ascending cmp l) :
    binarySearchBy cmp l = .ok i ↔ ∃ a, l[i]? = some a ∧ cmp a = .eq := by
  constructor
  · intro hfound
    unfold binarySearchBy at hfound
    cases hat : l[narrow cmp l 0 l.length]? with
    | none => simp only [hat, reduceCtorEq] at hfound
    | some a =>
        cases ha : cmp a with
        | eq =>
            simp only [hat, ha, Except.ok.injEq] at hfound
            exact ⟨a, hfound ▸ hat, ha⟩
        | lt => simp only [hat, ha, reduceCtorEq] at hfound
        | gt => simp only [hat, ha, reduceCtorEq] at hfound
  · rintro ⟨a, hi, ha⟩
    have hlen := (List.getElem?_eq_some_iff.mp hi).1
    have hnarrow : narrow cmp l 0 l.length = i := narrow_eq h hi ha (Nat.zero_le i) (by omega) (by omega)
    unfold binarySearchBy
    simp only [hnarrow, hi, ha]

end Searching

end SortedLookup
