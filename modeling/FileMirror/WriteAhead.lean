import Mathlib.Data.List.Basic

set_option autoImplicit false

namespace FileMirror.WriteAhead

section Cut

variable {σ ε : Type*} {run : σ → ε → σ} {s t : σ} {e : ε} {as bs es : List ε}

/-- `t` is a state in which a process starting in `s` may be cut off. -/
def Cut (run : σ → ε → σ) (s : σ) (es : List ε) (t : σ) : Prop :=
  ∃ n, t = (es.take n).foldl run s

theorem Cut.start : Cut run s es s := ⟨0, rfl⟩

theorem cut_nil : Cut run s [] t ↔ t = s :=
  ⟨fun ⟨n, h⟩ => by simpa using h, fun h => h ▸ Cut.start⟩

theorem cut_cons : Cut run s (e :: es) t ↔ t = s ∨ Cut run (run s e) es t := by
  constructor
  · rintro ⟨n, h⟩
    cases n with
    | zero => exact .inl h
    | succ n => exact .inr ⟨n, h⟩
  · rintro (h | ⟨n, h⟩)
    · exact ⟨0, h⟩
    · exact ⟨n + 1, h⟩

theorem Cut.invariant {I : σ → Prop} (hcut : Cut run s es t) (hs : I s)
    (hstep : ∀ s, ∀ e ∈ es, I s → I (run s e)) : I t := by
  induction es generalizing s with
  | nil =>
      rw [cut_nil.mp hcut]
      exact hs
  | cons e es ih =>
      rcases cut_cons.mp hcut with rfl | hcut
      · exact hs
      · exact ih hcut (hstep s e (List.mem_cons_self ..) hs) fun u f hf =>
          hstep u f (List.mem_cons_of_mem _ hf)

end Cut

section Justified

variable {ε δ : Type*} (writes : ε → List δ) (needs : List δ → ε → Prop)

def written (es : List ε) : List δ := es.flatMap writes

def Justified : List δ → List ε → Prop
  | _, [] => True
  | before, e :: es => needs before e ∧ Justified (before ++ writes e) es

variable {writes needs} {before after : List δ} {e : ε} {as bs es : List ε}

theorem written_append : written writes (as ++ bs) = written writes as ++ written writes bs :=
  List.flatMap_append

theorem justified_append : Justified writes needs before (as ++ bs) ↔
    Justified writes needs before as ∧ Justified writes needs (before ++ written writes as) bs := by
  induction as generalizing before with
  | nil => simp [Justified, written]
  | cons a as ih =>
      have hwritten : written writes (a :: as) = writes a ++ written writes as :=
        List.flatMap_cons
      rw [List.cons_append, Justified, ih, Justified, and_assoc, hwritten, List.append_assoc]

theorem Justified.take (h : Justified writes needs before es) (n : ℕ) :
    Justified writes needs before (es.take n) := by
  rw [← List.take_append_drop n es, justified_append] at h
  exact h.1

section Monotone

variable (hmono : ∀ {before after : List δ} {e : ε}, before ⊆ after → needs before e →
  needs after e)

include hmono

theorem justified_of_forall (h : ∀ e ∈ es, needs before e) :
    Justified writes needs before es := by
  induction es generalizing before with
  | nil => trivial
  | cons e es ih =>
      refine ⟨h e (List.mem_cons_self ..), ih fun f hf => ?_⟩
      exact hmono (List.subset_append_left ..) (h f (List.mem_cons_of_mem _ hf))

theorem Justified.needs_of_mem (h : Justified writes needs before es) (he : e ∈ es) :
    needs (before ++ written writes es) e := by
  induction es generalizing before with
  | nil => cases he
  | cons f es ih =>
      rw [written, List.flatMap_cons]
      cases he with
      | head => exact hmono (List.subset_append_left ..) h.1
      | tail _ he =>
          rw [← List.append_assoc]
          exact ih h.2 he

theorem Justified.flush {records : List δ} {logged ops : List ε}
    (h : Justified writes needs before es)
    (hlogged : written writes logged = records)
    (hwrite : ∀ e ∈ logged, needs (before ++ written writes es) e)
    (hops : ∀ e ∈ ops, needs (before ++ written writes es ++ records) e) :
    Justified writes needs before (es ++ (logged ++ ops)) := by
  rw [justified_append, justified_append, hlogged]
  exact ⟨h, justified_of_forall hmono hwrite, justified_of_forall hmono hops⟩

end Monotone

end Justified

end FileMirror.WriteAhead
