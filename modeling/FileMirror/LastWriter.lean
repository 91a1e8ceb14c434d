import Mathlib.Order.Lattice
import Mathlib.Logic.Function.Basic

set_option autoImplicit false

/-!
# Last-writer registers

A family of slots, each holding at most one value, where of two values of one slot the one
with the greater key stays. Absorbing a list of values is a least upper bound in the order
`Below`, so that the order of the list, repetitions in it and the way it is cut into parts
do not show in the result.
-/

namespace FileMirror.LastWriter

variable {ι α κ : Type*} [LinearOrder κ]

/-- What a slot keeps when `a` arrives. -/
def keep (key : α → κ) : Option α → α → α
  | none, a => a
  | some e, a => if key e < key a then a else e

structure Registers (slot : α → ι) where
  held : ι → Option α
  slot_eq : ∀ {i : ι} {e : α}, held i = some e → slot e = i

variable {slot : α → ι} {key : α → κ} {r s t : Registers slot} {a b e : α} {i : ι}

@[ext]
theorem Registers.ext (h : ∀ i, r.held i = s.held i) : r = s := by
  cases r
  cases s
  congr
  exact funext h

theorem slot_keep {o : Option α} (h : ∀ e, o = some e → slot e = slot a) :
    slot (keep key o a) = slot a := by
  cases o with
  | none => rfl
  | some e =>
      simp only [keep]
      split_ifs
      · rfl
      · exact h e rfl

theorem le_keep_new (o : Option α) : key a ≤ key (keep key o a) := by
  cases o with
  | none => exact le_rfl
  | some e =>
      simp only [keep]
      split_ifs with h
      · exact le_rfl
      · exact not_lt.mp h

theorem le_keep_old : key e ≤ key (keep key (some e) a) := by
  simp only [keep]
  split_ifs with h
  · exact h.le
  · exact le_rfl

/-- The value of `a`'s slot is `a` or one that supersedes it. -/
def Accounts (key : α → κ) (r : Registers slot) (a : α) : Prop :=
  ∃ e, r.held (slot a) = some e ∧ key a ≤ key e

def Below (key : α → κ) (r s : Registers slot) : Prop :=
  ∀ i e, r.held i = some e → Accounts key s e

theorem Accounts.of_held (h : r.held i = some e) : Accounts key r e :=
  ⟨e, by rw [r.slot_eq h, h], le_rfl⟩

theorem Below.refl (r : Registers slot) : Below key r r :=
  fun _ _ => Accounts.of_held

theorem Accounts.mono (h : Accounts key r a) (hrs : Below key r s) : Accounts key s a := by
  obtain ⟨e, he, hae⟩ := h
  obtain ⟨f, hf, hef⟩ := hrs _ _ he
  rw [r.slot_eq he] at hf
  exact ⟨f, hf, hae.trans hef⟩

theorem Below.trans (hrs : Below key r s) (hst : Below key s t) : Below key r t :=
  fun i e he => (hrs i e he).mono hst

def Separates (slot : α → ι) (key : α → κ) : Prop :=
  ∀ a b, slot a = slot b → key a = key b → a = b

theorem Below.antisymm (hkey : Separates slot key) (hrs : Below key r s)
    (hsr : Below key s r) : r = s := by
  have agree : ∀ {r s : Registers slot}, Below key r s → Below key s r →
      ∀ i e, r.held i = some e → s.held i = some e := by
    intro r s hrs hsr i e he
    obtain ⟨f, hf, hef⟩ := hrs i e he
    obtain ⟨g, hg, hfg⟩ := hsr _ f hf
    have hslot : slot e = slot f := (s.slot_eq hf).symm
    rw [s.slot_eq hf, r.slot_eq he, he, Option.some.injEq] at hg
    subst hg
    obtain rfl : e = f := hkey e f hslot (le_antisymm hef hfg)
    rwa [r.slot_eq he] at hf
  refine Registers.ext fun i => ?_
  cases hr : r.held i with
  | some e => exact (agree hrs hsr i e hr).symm
  | none =>
      cases hs : s.held i with
      | none => rfl
      | some e => rw [agree hsr hrs i e hs] at hr; cases hr

variable [DecidableEq ι]

def absorb (key : α → κ) (r : Registers slot) (a : α) : Registers slot where
  held := Function.update r.held (slot a) (some (keep key (r.held (slot a)) a))
  slot_eq := by
    intro i e h
    by_cases hi : i = slot a
    · subst hi
      rw [Function.update_self, Option.some.injEq] at h
      subst h
      exact slot_keep fun _ => r.slot_eq
    · rw [Function.update_of_ne hi] at h
      exact r.slot_eq h

def absorbAll (key : α → κ) (r : Registers slot) (as : List α) : Registers slot :=
  as.foldl (absorb key) r

theorem accounts_absorb_self (r : Registers slot) (a : α) : Accounts key (absorb key r a) a :=
  ⟨_, Function.update_self .., le_keep_new _⟩

theorem below_absorb (r : Registers slot) (a : α) : Below key r (absorb key r a) := by
  intro i e he
  by_cases hi : i = slot a
  · refine ⟨keep key (r.held (slot a)) a, ?_, ?_⟩
    · rw [r.slot_eq he, hi]
      exact Function.update_self ..
    · rw [← hi, he]
      exact le_keep_old
  · refine ⟨e, ?_, le_rfl⟩
    rw [r.slot_eq he]
    exact (Function.update_of_ne hi ..).trans he

theorem absorb_below (hr : Below key r t) (ha : Accounts key t a) :
    Below key (absorb key r a) t := by
  intro i e he
  by_cases hi : i = slot a
  · subst hi
    rw [show (absorb key r a).held (slot a) = some (keep key (r.held (slot a)) a) from
      Function.update_self .., Option.some.injEq] at he
    subst he
    cases ho : r.held (slot a) with
    | none => exact ha
    | some e =>
        simp only [keep]
        split_ifs
        · exact ha
        · exact hr _ _ ho
  · rw [show (absorb key r a).held i = r.held i from Function.update_of_ne hi ..] at he
    exact hr i e he

theorem below_absorbAll (r : Registers slot) (as : List α) : Below key r (absorbAll key r as) := by
  induction as generalizing r with
  | nil => exact Below.refl r
  | cons a as ih => exact (below_absorb r a).trans (ih _)

theorem accounts_absorbAll {as : List α} (h : a ∈ as) : Accounts key (absorbAll key r as) a := by
  induction as generalizing r with
  | nil => cases h
  | cons b as ih =>
      cases h with
      | head => exact (accounts_absorb_self r a).mono (below_absorbAll _ as)
      | tail _ h => exact ih h

theorem absorbAll_below {as : List α} (hr : Below key r t) (has : ∀ a ∈ as, Accounts key t a) :
    Below key (absorbAll key r as) t := by
  induction as generalizing r with
  | nil => exact hr
  | cons a as ih =>
      exact ih (absorb_below hr (has a (List.mem_cons_self ..)))
        fun b hb => has b (List.mem_cons_of_mem _ hb)

theorem held_absorb (h : (absorb key r a).held i = some e) : r.held i = some e ∨ e = a := by
  by_cases hi : i = slot a
  · subst hi
    rw [show (absorb key r a).held (slot a) = some (keep key (r.held (slot a)) a) from
      Function.update_self .., Option.some.injEq] at h
    cases ho : r.held (slot a) with
    | none => exact .inr (by rw [← h, ho]; rfl)
    | some f =>
        rw [ho, keep] at h
        split_ifs at h
        · exact .inr h.symm
        · exact .inl (by rw [h])
  · exact .inl (by rwa [show (absorb key r a).held i = r.held i from
      Function.update_of_ne hi ..] at h)

theorem held_absorbAll {as : List α} (h : (absorbAll key r as).held i = some e) :
    r.held i = some e ∨ e ∈ as := by
  induction as generalizing r with
  | nil => exact .inl h
  | cons a as ih =>
      rcases ih h with h | h
      · rcases held_absorb h with h | rfl
        · exact .inl h
        · exact .inr (List.mem_cons_self ..)
      · exact .inr (List.mem_cons_of_mem _ h)

theorem absorbAll_eq_of_mem_iff (hkey : Separates slot key) {as bs : List α}
    (h : ∀ a, a ∈ as ↔ a ∈ bs) : absorbAll key r as = absorbAll key r bs :=
  Below.antisymm hkey
    (absorbAll_below (below_absorbAll r bs) fun a ha => accounts_absorbAll ((h a).mp ha))
    (absorbAll_below (below_absorbAll r as) fun a ha => accounts_absorbAll ((h a).mpr ha))

theorem absorbAll_absorbAll (hkey : Separates slot key) {as first rest : List α}
    (hfirst : first ⊆ as) (hrest : rest ⊆ as) (hall : as ⊆ first ++ rest) :
    absorbAll key (absorbAll key r first) rest = absorbAll key r as := by
  refine Below.antisymm hkey ?_ ?_
  · refine absorbAll_below (absorbAll_below (below_absorbAll r as) ?_) ?_
    · exact fun a ha => accounts_absorbAll (hfirst ha)
    · exact fun a ha => accounts_absorbAll (hrest ha)
  · refine absorbAll_below ((below_absorbAll r first).trans (below_absorbAll _ rest)) ?_
    intro a ha
    rcases List.mem_append.mp (hall ha) with ha | ha
    · exact (accounts_absorbAll ha).mono (below_absorbAll _ rest)
    · exact accounts_absorbAll ha

end FileMirror.LastWriter
