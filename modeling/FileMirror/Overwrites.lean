import Mathlib.Data.List.Basic

set_option autoImplicit false

/-!
# Overwriting events

Each event puts constants into some cells of a state. After a list of events every cell has what was
put into it last, so events may be played again onto a state that has them already, events on
different cells may be swapped, and a lost event matters only until its cells are written again.
-/

namespace FileMirror.Overwrites

variable {ι Op : Type*} {β : ι → Type*} (writes : Op → ∀ i, Option (β i)) {s t : ∀ i, β i}
  {as bs ops : List Op} {a b : Op} {i : ι}

/-- `writes op i` is what `op` puts into the cell `i`. -/
def overwrite (s : ∀ i, β i) (op : Op) : ∀ i, β i := fun i => (writes op i).getD (s i)

def replay (s : ∀ i, β i) (ops : List Op) : ∀ i, β i := ops.foldl (overwrite writes) s

def last : List Op → (i : ι) → Option (β i)
  | [], _ => none
  | op :: ops, i => (last ops i).or (writes op i)

theorem replay_cons : replay writes s (a :: ops) = replay writes (overwrite writes s a) ops := rfl

theorem replay_append : replay writes s (as ++ bs) = replay writes (replay writes s as) bs :=
  List.foldl_append

theorem replay_apply : replay writes s ops i = (last writes ops i).getD (s i) := by
  induction ops generalizing s with
  | nil => rfl
  | cons op ops ih =>
      rw [replay_cons, ih, last, overwrite]
      cases last writes ops i with
      | none => rfl
      | some v => rfl

theorem last_append : last writes (as ++ bs) i = (last writes bs i).or (last writes as i) := by
  induction as with
  | nil => simp [last]
  | cons a as ih => simp [last, ih, Option.or_assoc]

theorem replay_replay : replay writes (replay writes s ops) ops = replay writes s ops := by
  funext i
  simp only [replay_apply]
  cases last writes ops i with
  | none => rfl
  | some v => rfl

theorem replay_missed (h : (last writes bs i).isSome) :
    replay writes s (as ++ bs) i = replay writes t bs i := by
  obtain ⟨v, hv⟩ := Option.isSome_iff_exists.mp h
  rw [replay_apply, replay_apply, last_append, hv]
  rfl

theorem last_isSome : (last writes ops i).isSome ↔ ∃ op ∈ ops, (writes op i).isSome := by
  induction ops with
  | nil => simp [last]
  | cons op ops ih => simp [last, ih, or_comm]

theorem overwrite_comm (h : ∀ i, writes a i = none ∨ writes b i = none) :
    overwrite writes (overwrite writes s a) b = overwrite writes (overwrite writes s b) a := by
  funext i
  simp only [overwrite]
  rcases h i with ha | hb
  · simp [ha]
  · simp [hb]

theorem replay_overwrite (h : ∀ b ∈ ops, ∀ i, writes a i = none ∨ writes b i = none) :
    replay writes (overwrite writes s a) ops = overwrite writes (replay writes s ops) a := by
  induction ops generalizing s with
  | nil => rfl
  | cons b ops ih =>
      rw [replay_cons, replay_cons, overwrite_comm writes (h b (List.mem_cons_self ..))]
      exact ih fun c hc => h c (List.mem_cons_of_mem b hc)

end FileMirror.Overwrites
