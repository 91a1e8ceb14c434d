import Mathlib.Data.List.Basic
import Mathlib.Data.List.TakeDrop
import Mathlib.Data.List.Infix
import Mathlib.Data.List.Perm.Basic

set_option autoImplicit false

/-!
# Writes at offsets

A file is filled by writes that each bring a piece of one content to its place. In whatever order they
come, and however often, the file is that content once every place has been written. The order may be
any in which lists of writes are gone through at once.
-/

namespace Patches

variable {α : Type*} {file content data : List α} {offset i : ℕ} {patches : List (ℕ × List α)}

def writeAt (fill : α) (file : List α) (offset : ℕ) (data : List α) : List α :=
  if data = [] then file
  else file.takeD offset fill ++ (data ++ file.drop (offset + data.length))

def Fits (content : List α) (patch : ℕ × List α) : Prop := patch.2 <+: content.drop patch.1

def Covers (patch : ℕ × List α) (i : ℕ) : Prop := patch.1 ≤ i ∧ i < patch.1 + patch.2.length

theorem Fits.length_le (h : Fits content (offset, data)) (hne : data ≠ []) :
    offset + data.length ≤ content.length := by
  have hpos := List.length_pos_iff.mpr hne
  have hle := List.IsPrefix.length_le h
  rw [List.length_drop] at hle
  dsimp only at hle
  omega

theorem Fits.getElem? (h : Fits content (offset, data)) (hi : Covers (offset, data) i) :
    data[i - offset]? = content[i]? := by
  obtain ⟨rest, hrest⟩ := h
  unfold Covers at hi
  dsimp only at hi hrest
  have hcontent : content[i]? = (content.drop offset)[i - offset]? := by
    rw [List.getElem?_drop]
    congr 1
    omega
  rw [hcontent, ← hrest, List.getElem?_append_left (by omega)]

variable (fill : α)

theorem length_writeAt (h : offset + data.length ≤ file.length) :
    (writeAt fill file offset data).length = file.length := by
  unfold writeAt
  split_ifs
  · rfl
  · rw [List.length_append, List.length_append, List.length_drop, List.takeD_length]
    omega

theorem getElem?_writeAt (h : offset + data.length ≤ file.length) :
    (writeAt fill file offset data)[i]? =
      if offset ≤ i ∧ i < offset + data.length then data[i - offset]? else file[i]? := by
  unfold writeAt
  split_ifs with hempty hin hin
  · subst hempty
    simp only [List.length_nil, Nat.add_zero] at hin
    omega
  · rfl
  · rw [List.takeD_eq_take _ (by omega), List.getElem?_append_right (by rw [List.length_take]; omega),
      List.length_take, Nat.min_eq_left (by omega), List.getElem?_append_left (by omega)]
  · rw [List.takeD_eq_take _ (by omega)]
    by_cases hbefore : i < offset
    · rw [List.getElem?_append_left (by rw [List.length_take]; omega), List.getElem?_take,
        if_pos hbefore]
    · rw [List.getElem?_append_right (by rw [List.length_take]; omega), List.length_take,
        Nat.min_eq_left (by omega), List.getElem?_append_right (by omega), List.getElem?_drop]
      congr 1
      omega

theorem writeAt_fits (hlen : file.length = content.length) (h : Fits content (offset, data)) :
    (writeAt fill file offset data).length = content.length ∧
      ∀ i, file[i]? = content[i]? ∨ Covers (offset, data) i →
        (writeAt fill file offset data)[i]? = content[i]? := by
  by_cases hempty : data = []
  · have hsame : writeAt fill file offset data = file := if_pos hempty
    rw [hsame]
    refine ⟨hlen, fun i hi => hi.resolve_right fun hcovers => ?_⟩
    unfold Covers at hcovers
    rw [hempty, List.length_nil] at hcovers
    omega
  · have hend := h.length_le hempty
    refine ⟨(length_writeAt fill (by omega)).trans hlen, fun i hi => ?_⟩
    rw [getElem?_writeAt fill (by omega)]
    split_ifs with hin
    · exact h.getElem? hin
    · exact hi.resolve_right hin

theorem writes_fill (hlen : file.length = content.length) (hfits : ∀ p ∈ patches, Fits content p)
    (hcovers : ∀ i < content.length, file[i]? = content[i]? ∨ ∃ p ∈ patches, Covers p i) :
    patches.foldl (fun file p => writeAt fill file p.1 p.2) file = content := by
  induction patches generalizing file with
  | nil =>
      refine List.ext_getElem? fun i => ?_
      by_cases hi : i < content.length
      · simpa using hcovers i hi
      · rw [List.foldl_nil, List.getElem?_eq_none (by omega), List.getElem?_eq_none (by omega)]
  | cons p rest ih =>
      obtain ⟨hp, hrest⟩ := List.forall_mem_cons.mp hfits
      obtain ⟨hlength, hright⟩ := writeAt_fits fill hlen hp
      refine ih hlength hrest fun i hi => ?_
      rcases hcovers i hi with hsame | ⟨q, hq, hqi⟩
      · exact .inl (hright i (.inl hsame))
      · rcases List.mem_cons.mp hq with rfl | hq
        · exact .inl (hright i (.inr hqi))
        · exact .inr ⟨q, hq, hqi⟩

def placed : ℕ → List (List α) → List (ℕ × List α)
  | _, [] => []
  | offset, piece :: rest => (offset, piece) :: placed (offset + piece.length) rest

theorem placed_fits (front : List α) (pieces : List (List α)) :
    ∀ p ∈ placed front.length pieces, Fits (front ++ pieces.flatten) p := by
  induction pieces generalizing front with
  | nil => simp [placed]
  | cons piece rest ih =>
      rw [placed, List.forall_mem_cons, List.flatten_cons, ← List.append_assoc, ← List.length_append]
      refine ⟨?_, ih (front ++ piece)⟩
      unfold Fits
      rw [List.append_assoc, List.drop_left]
      exact List.prefix_append _ _

theorem placed_covers (offset : ℕ) (pieces : List (List α)) (hfrom : offset ≤ i)
    (hto : i < offset + pieces.flatten.length) : ∃ p ∈ placed offset pieces, Covers p i := by
  induction pieces generalizing offset with
  | nil =>
      rw [List.flatten_nil, List.length_nil] at hto
      omega
  | cons piece rest ih =>
      rw [List.flatten_cons, List.length_append] at hto
      by_cases hhere : i < offset + piece.length
      · exact ⟨_, List.mem_cons_self .., hfrom, hhere⟩
      · obtain ⟨p, hp, hcovers⟩ := ih (offset + piece.length) (by omega) (by omega)
        exact ⟨p, List.mem_cons_of_mem _ hp, hcovers⟩

inductive Interleaved : List (List α) → List α → Prop
  | done {tasks : List (List α)} (h : ∀ task ∈ tasks, task = []) : Interleaved tasks []
  | step {front back : List (List α)} {a : α} {rest as : List α}
      (h : Interleaved (front ++ rest :: back) as) :
      Interleaved (front ++ (a :: rest) :: back) (a :: as)

theorem Interleaved.perm {tasks : List (List α)} {as : List α} (h : Interleaved tasks as) :
    as.Perm tasks.flatten := by
  induction h with
  | done h => rw [List.flatten_eq_nil_iff.mpr h]
  | @step front back a rest as h ih =>
      rw [List.flatten_append, List.flatten_cons] at ih ⊢
      rw [List.cons_append]
      exact (ih.cons a).trans List.perm_middle.symm

theorem interleaved_flatten (tasks : List (List α)) : Interleaved tasks tasks.flatten := by
  suffices hfrom : ∀ front : List (List α), (∀ task ∈ front, task = []) →
      Interleaved (front ++ tasks) tasks.flatten from hfrom [] (by simp)
  induction tasks with
  | nil =>
      intro front hfront
      rw [List.append_nil]
      exact .done hfront
  | cons task tasks ih =>
      intro front hfront
      induction task with
      | nil =>
          have hall := ih (front ++ [[]]) (List.forall_mem_append.mpr ⟨hfront, by simp⟩)
          rwa [List.append_assoc] at hall
      | cons a rest ihrest => exact .step ihrest

end Patches
