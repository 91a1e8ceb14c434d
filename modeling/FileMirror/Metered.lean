import Mathlib.Data.List.Basic
import Mathlib.Data.Nat.Notation

set_option autoImplicit false

/-!
# Metered calls

A call returns a value, fails or panics, and by then has allocated so many bytes. A budget pays for
what is allocated, and what a call leaves of it is there for the next one.
-/

namespace FileMirror

inductive Failure (ε : Type) where
  | error (error : ε)
  | panicked

structure Metered (ε α : Type) where
  result : Except (Failure ε) α
  allocated : ℕ

namespace Metered

variable {ε α β : Type}

def fail (e : ε) : Metered ε α := ⟨.error (.error e), 0⟩

def panicked : Metered ε α := ⟨.error .panicked, 0⟩

def allocate (bytes : ℕ) : Metered ε Unit := ⟨.ok (), bytes⟩

instance : Monad (Metered ε) where
  pure a := ⟨.ok a, 0⟩
  bind x f :=
    match x.result with
    | .error e => ⟨.error e, x.allocated⟩
    | .ok a => ⟨(f a).result, x.allocated + (f a).allocated⟩

/-- `ok_or_else` -/
def orFail (found : Option α) (e : ε) : Metered ε α :=
  match found with
  | some a => pure a
  | none => fail e

/-- `map_err` -/
def mapError {δ : Type} (f : ε → δ) (x : Metered ε α) : Metered δ α where
  result :=
    match x.result with
    | .ok a => .ok a
    | .error (.error e) => .error (.error (f e))
    | .error .panicked => .error .panicked
  allocated := x.allocated

def splitAt (n : ℕ) (l : List β) : Metered ε (List β × List β) :=
  if n ≤ l.length then pure (l.take n, l.drop n) else panicked

/-- `l[i]` -/
def get (l : List β) (i : ℕ) : Metered ε β :=
  match l[i]? with
  | some b => pure b
  | none => panicked

/-- `l[from..to]` -/
def slice (l : List β) (start stop : ℕ) : Metered ε (List β) :=
  if start ≤ stop ∧ stop ≤ l.length then pure ((l.take stop).drop start) else panicked

/-- It does not panic, and allocates within the budget, of which a value leaves so much. -/
structure Within (x : Metered ε α) (budget : ℕ) (left : α → ℕ) : Prop where
  unbroken : x.result ≠ .error .panicked
  failed : ∀ e, x.result = .error e → x.allocated ≤ budget
  returned : ∀ a, x.result = .ok a → x.allocated + left a ≤ budget

section Rules

variable {x : Metered ε α} {f : α → Metered ε β} {budget : ℕ} {left : α → ℕ} {left' : β → ℕ}
  {a : α} {e : ε} {l front middle back : List β} {n : ℕ}

theorem bind_of_ok (h : x.result = .ok a) :
    x >>= f = ⟨(f a).result, x.allocated + (f a).allocated⟩ := by
  change (match x.result with
    | .error e => (⟨.error e, x.allocated⟩ : Metered ε β)
    | .ok a => ⟨(f a).result, x.allocated + (f a).allocated⟩) = _
  rw [h]

theorem bind_of_error {e : Failure ε} (h : x.result = .error e) :
    x >>= f = ⟨.error e, x.allocated⟩ := by
  change (match x.result with
    | .error e => (⟨.error e, x.allocated⟩ : Metered ε β)
    | .ok a => ⟨(f a).result, x.allocated + (f a).allocated⟩) = _
  rw [h]

@[simp] theorem pure_bind (a : α) (f : α → Metered ε β) : pure a >>= f = f a := by
  rw [bind_of_ok (x := pure a) rfl]
  change (⟨(f a).result, 0 + (f a).allocated⟩ : Metered ε β) = f a
  rw [Nat.zero_add]

@[simp] theorem result_pure (a : α) : (pure a : Metered ε α).result = .ok a := rfl

theorem bind_eq_ok {b : β} :
    (x >>= f).result = .ok b ↔ ∃ a, x.result = .ok a ∧ (f a).result = .ok b := by
  cases hx : x.result with
  | error e =>
      rw [bind_of_error hx]
      constructor
      · nofun
      · rintro ⟨a, ha, _⟩
        cases ha
  | ok a =>
      rw [bind_of_ok hx]
      constructor
      · exact fun h => ⟨a, rfl, h⟩
      · rintro ⟨a', ha', h⟩
        cases ha'
        exact h

theorem orFail_eq_ok {found : Option α} : (orFail found e).result = .ok a ↔ found = some a := by
  cases found with
  | none => exact iff_of_false nofun nofun
  | some b =>
      constructor
      · intro h
        cases h
        rfl
      · intro h
        cases h
        rfl

theorem mapError_eq_ok {δ : Type} {f : ε → δ} : (x.mapError f).result = .ok a ↔ x.result = .ok a := by
  unfold mapError
  cases x.result with
  | ok b =>
      constructor
      · intro h
        cases h
        rfl
      · intro h
        cases h
        rfl
  | error failure => cases failure <;> exact iff_of_false nofun nofun

theorem mapError_pure {δ : Type} {f : ε → δ} (a : α) :
    (pure a : Metered ε α).mapError f = pure a := rfl

theorem splitAt_of_le (h : n ≤ l.length) :
    (splitAt n l : Metered ε _) = pure (l.take n, l.drop n) := if_pos h

theorem slice_middle (front middle back : List β) {start stop : ℕ} (hstart : front.length = start)
    (hstop : start + middle.length = stop) :
    (slice (front ++ (middle ++ back)) start stop : Metered ε _) = pure middle := by
  have hlen : front.length + middle.length = stop := by omega
  have htake : (front ++ (middle ++ back)).take stop = front ++ middle := by
    rw [← List.append_assoc, ← hlen, ← List.length_append, List.take_left]
  unfold slice
  rw [if_pos (by simp only [List.length_append]; omega), htake, ← hstart, List.drop_left]

theorem within_pure (h : left a ≤ budget) : Within (pure a : Metered ε α) budget left where
  unbroken := nofun
  failed := nofun
  returned a' ha' := by
    cases ha'
    rw [Nat.add_comm]
    exact h

theorem within_fail : Within (fail e : Metered ε α) budget left where
  unbroken := nofun
  failed _ _ := Nat.zero_le _
  returned := nofun

theorem within_allocate {bytes : ℕ} {left : Unit → ℕ} (h : bytes + left () ≤ budget) :
    Within (allocate bytes : Metered ε Unit) budget left where
  unbroken := nofun
  failed := nofun
  returned _ _ := h

theorem within_orFail {found : Option α} (h : ∀ a, found = some a → left a ≤ budget) :
    Within (orFail found e) budget left := by
  cases found with
  | none => exact within_fail
  | some a => exact within_pure (h a rfl)

theorem Within.bind (hx : Within x budget left)
    (hf : ∀ a, x.result = .ok a → Within (f a) (left a) left') : Within (x >>= f) budget left' := by
  cases h : x.result with
  | error e =>
      rw [bind_of_error h]
      refine ⟨?_, fun e he => ?_, nofun⟩
      · intro hbroken
        cases hbroken
        exact hx.unbroken h
      · cases he
        exact hx.failed e h
  | ok a =>
      have hspent := hx.returned a h
      have hnext := hf a h
      rw [bind_of_ok h]
      refine ⟨hnext.unbroken, fun e he => ?_, fun b hb => ?_⟩
      · have := hnext.failed e he
        dsimp only
        omega
      · have := hnext.returned b hb
        dsimp only
        omega

theorem Within.mono {budget' : ℕ} (hx : Within x budget left) (h : budget ≤ budget') :
    Within x budget' left where
  unbroken := hx.unbroken
  failed e he := Nat.le_trans (hx.failed e he) h
  returned a ha := Nat.le_trans (hx.returned a ha) h

theorem Within.frame (hx : Within x budget left) (more : ℕ) :
    Within x (budget + more) fun a => left a + more where
  unbroken := hx.unbroken
  failed e he := by
    have := hx.failed e he
    omega
  returned a ha := by
    have := hx.returned a ha
    omega

theorem Within.error_of_not_ok (hx : Within x budget left) (h : ∀ a, x.result ≠ .ok a) :
    ∃ e, x.result = .error (.error e) := by
  cases hr : x.result with
  | ok a => exact absurd hr (h a)
  | error failure =>
      cases failure with
      | error e => exact ⟨e, rfl⟩
      | panicked => exact absurd hr hx.unbroken

end Rules

end Metered

end FileMirror
