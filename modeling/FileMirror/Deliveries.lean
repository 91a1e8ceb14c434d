import Mathlib.Data.Finset.Basic
import Mathlib.Data.Finset.SDiff
import Mathlib.Data.Finset.Dedup
import Mathlib.Data.List.Nodup
import Mathlib.Logic.Function.Basic

set_option autoImplicit false

namespace FileMirror.Deliveries

variable {κ α : Type*} {old known : α → Prop} {stored waiting batch : List α} {going : κ → List α}
  {aloft : Finset α} {c : κ} {a : α}

/-- `known` may lag behind what is stored, but then `aloft` still has it. -/
structure Placed (old : α → Prop) (stored waiting : List α) (going : κ → List α)
    (aloft : Finset α) (known : α → Prop) : Prop where
  nodup : (stored ++ waiting).Nodup
  carried : ∀ c, (going c).Nodup ∧ ∀ a ∈ going c, a ∉ stored ∧ a ∉ waiting ∧ a ∈ aloft
  apart : ∀ c d, c ≠ d → (going c).Disjoint (going d)
  fresh : ∀ a, a ∈ stored ∨ a ∈ waiting ∨ (∃ c, a ∈ going c) → ¬ old a
  keeps : ∀ a, old a → known a
  learnt : ∀ a, known a → old a ∨ a ∈ stored
  counted : ∀ a ∈ aloft, a ∈ stored ∨ ∃ c, a ∈ going c
  covered : ∀ a ∈ stored, known a ∨ a ∈ aloft

theorem Placed.start : Placed old [] [] (fun _ : κ => []) (∅ : Finset α) old := by
  constructor <;> simp

theorem Placed.nowhere (h : Placed old stored waiting going aloft known) (hknown : ¬ known a)
    (haloft : a ∉ aloft) : a ∉ stored ∧ ∀ c, a ∉ going c := by
  constructor
  · intro ha
    exact (h.covered a ha).elim hknown haloft
  · intro c ha
    exact haloft ((h.carried c).2 a ha).2.2

theorem Placed.join (h : Placed old stored waiting going aloft known) (hknown : ¬ known a)
    (hwaiting : a ∉ waiting) (haloft : a ∉ aloft) :
    Placed old stored (waiting ++ [a]) going aloft known := by
  obtain ⟨hstored, hgoing⟩ := h.nowhere hknown haloft
  have hnew : a ∉ stored ++ waiting := by
    rw [List.mem_append, not_or]
    exact ⟨hstored, hwaiting⟩
  refine { h with nodup := ?_, carried := ?_, fresh := ?_ }
  · rw [← List.append_assoc, List.nodup_append]
    refine ⟨h.nodup, List.nodup_singleton a, ?_⟩
    intro b hb b' hb'
    rw [List.mem_singleton.mp hb']
    rintro rfl
    exact hnew hb
  · intro c
    refine ⟨(h.carried c).1, fun b hb => ?_⟩
    obtain ⟨hbstored, hbwaiting, hbaloft⟩ := (h.carried c).2 b hb
    refine ⟨hbstored, ?_, hbaloft⟩
    rw [List.mem_append, List.mem_singleton, not_or]
    refine ⟨hbwaiting, ?_⟩
    rintro rfl
    exact hgoing c hb
  · rintro b (hb | hb | hb)
    · exact h.fresh b (.inl hb)
    · rcases List.mem_append.mp hb with hb | hb
      · exact h.fresh b (.inr (.inl hb))
      · rw [List.mem_singleton.mp hb]
        exact fun hold => hknown (h.keeps a hold)
    · exact h.fresh b (.inr (.inr hb))

theorem Placed.learn {known' : α → Prop} (h : Placed old stored waiting going aloft known)
    (hbatch : ∀ a ∈ batch, a ∈ stored) (hknown : ∀ a, known' a ↔ known a ∨ a ∈ batch) :
    Placed old stored waiting going aloft known' := by
  refine { h with keeps := ?_, learnt := ?_, covered := ?_ }
  · exact fun a ha => (hknown a).mpr (.inl (h.keeps a ha))
  · intro a ha
    rcases (hknown a).mp ha with ha | ha
    · exact h.learnt a ha
    · exact .inr (hbatch a ha)
  · exact fun a ha => (h.covered a ha).imp_left fun ha => (hknown a).mpr (.inl ha)

variable [DecidableEq κ]

private theorem mem_update {d : κ} (h : a ∈ Function.update going c batch d) :
    d = c ∧ a ∈ batch ∨ d ≠ c ∧ a ∈ going d := by
  by_cases hd : d = c
  · subst hd
    rw [Function.update_self] at h
    exact .inl ⟨rfl, h⟩
  · rw [Function.update_of_ne hd] at h
    exact .inr ⟨hd, h⟩

theorem Placed.arrive (h : Placed old stored waiting going aloft known) :
    Placed old (going c ++ stored) waiting (Function.update going c []) aloft known := by
  constructor
  · rw [List.append_assoc, List.nodup_append]
    refine ⟨(h.carried c).1, h.nodup, ?_⟩
    rintro a ha b hb rfl
    obtain ⟨hstored, hwaiting, -⟩ := (h.carried c).2 a ha
    exact (List.mem_append.mp hb).elim hstored hwaiting
  · intro d
    by_cases hd : d = c
    · subst hd
      rw [Function.update_self]
      exact ⟨List.nodup_nil, fun a ha => absurd ha List.not_mem_nil⟩
    · rw [Function.update_of_ne hd]
      refine ⟨(h.carried d).1, fun a ha => ?_⟩
      obtain ⟨hstored, hrest⟩ := (h.carried d).2 a ha
      refine ⟨?_, hrest⟩
      rw [List.mem_append, not_or]
      exact ⟨h.apart d c hd ha, hstored⟩
  · intro d e hde a ha hb
    rcases mem_update ha with ⟨-, ha⟩ | ⟨-, ha⟩
    · cases ha
    · rcases mem_update hb with ⟨-, hb⟩ | ⟨-, hb⟩
      · cases hb
      · exact h.apart d e hde ha hb
  · rintro a (ha | ha | ⟨d, ha⟩)
    · rcases List.mem_append.mp ha with ha | ha
      · exact h.fresh a (.inr (.inr ⟨c, ha⟩))
      · exact h.fresh a (.inl ha)
    · exact h.fresh a (.inr (.inl ha))
    · rcases mem_update ha with ⟨-, ha⟩ | ⟨-, ha⟩
      · cases ha
      · exact h.fresh a (.inr (.inr ⟨d, ha⟩))
  · exact h.keeps
  · exact fun a ha => (h.learnt a ha).imp_right (List.mem_append_right _)
  · intro a ha
    rcases h.counted a ha with ha | ⟨d, ha⟩
    · exact .inl (List.mem_append_right _ ha)
    · by_cases hd : d = c
      · exact .inl (List.mem_append_left _ (hd ▸ ha))
      · refine .inr ⟨d, ?_⟩
        rw [Function.update_of_ne hd]
        exact ha
  · intro a ha
    rcases List.mem_append.mp ha with ha | ha
    · exact .inr ((h.carried c).2 a ha).2.2
    · exact h.covered a ha

variable [DecidableEq α]

theorem Placed.depart (h : Placed old stored waiting going aloft known) (hc : going c = []) :
    Placed old stored [] (Function.update going c waiting) (aloft ∪ waiting.toFinset) known := by
  obtain ⟨hstored, hwaiting, hdisjoint⟩ := List.nodup_append.mp h.nodup
  have hapart : ∀ d, waiting.Disjoint (going d) :=
    fun d a ha hd => ((h.carried d).2 a hd).2.1 ha
  constructor
  · rw [List.append_nil]
    exact hstored
  · intro d
    by_cases hd : d = c
    · subst hd
      rw [Function.update_self]
      refine ⟨hwaiting, fun a ha => ⟨fun hs => hdisjoint a hs a ha rfl, List.not_mem_nil, ?_⟩⟩
      exact Finset.mem_union_right _ (List.mem_toFinset.mpr ha)
    · rw [Function.update_of_ne hd]
      refine ⟨(h.carried d).1, fun a ha => ?_⟩
      obtain ⟨hs, -, haloft⟩ := (h.carried d).2 a ha
      exact ⟨hs, List.not_mem_nil, Finset.mem_union_left _ haloft⟩
  · intro d e hde a ha hb
    rcases mem_update ha with ⟨hd, ha⟩ | ⟨-, ha⟩
    · rcases mem_update hb with ⟨he, -⟩ | ⟨-, hb⟩
      · exact hde (hd.trans he.symm)
      · exact hapart e ha hb
    · rcases mem_update hb with ⟨-, hb⟩ | ⟨-, hb⟩
      · exact hapart d hb ha
      · exact h.apart d e hde ha hb
  · rintro a (ha | ha | ⟨d, ha⟩)
    · exact h.fresh a (.inl ha)
    · cases ha
    · rcases mem_update ha with ⟨-, ha⟩ | ⟨-, ha⟩
      · exact h.fresh a (.inr (.inl ha))
      · exact h.fresh a (.inr (.inr ⟨d, ha⟩))
  · exact h.keeps
  · exact h.learnt
  · intro a ha
    rcases Finset.mem_union.mp ha with ha | ha
    · rcases h.counted a ha with ha | ⟨d, ha⟩
      · exact .inl ha
      · refine .inr ⟨d, ?_⟩
        have hd : d ≠ c := by
          rintro rfl
          rw [hc] at ha
          cases ha
        rw [Function.update_of_ne hd]
        exact ha
    · refine .inr ⟨c, ?_⟩
      rw [Function.update_self]
      exact List.mem_toFinset.mp ha
  · exact fun a ha => (h.covered a ha).imp_right (Finset.mem_union_left _)

omit [DecidableEq κ] in
theorem Placed.settle (h : Placed old stored waiting going aloft known)
    (hbatch : ∀ a ∈ batch, a ∈ stored ∧ known a) :
    Placed old stored waiting going (aloft \ batch.toFinset) known := by
  refine { h with carried := ?_, counted := ?_, covered := ?_ }
  · intro c
    refine ⟨(h.carried c).1, fun a ha => ?_⟩
    obtain ⟨hstored, hwaiting, haloft⟩ := (h.carried c).2 a ha
    refine ⟨hstored, hwaiting, ?_⟩
    rw [Finset.mem_sdiff, List.mem_toFinset]
    exact ⟨haloft, fun hb => hstored (hbatch a hb).1⟩
  · exact fun a ha => h.counted a (Finset.mem_sdiff.mp ha).1
  · intro a ha
    by_cases hb : a ∈ batch
    · exact .inl (hbatch a hb).2
    · refine (h.covered a ha).imp_right fun haloft => ?_
      rw [Finset.mem_sdiff, List.mem_toFinset]
      exact ⟨haloft, hb⟩

/-- Each item that is present is either settled, once, or in the claim of just one caller. -/
structure Credited (present : α → Prop) (claims : κ → Option α) (settled : List α) : Prop where
  nodup : settled.Nodup
  here : ∀ a ∈ settled, present a
  claimed : ∀ c a, claims c = some a → present a ∧ a ∉ settled
  sole : ∀ c d a, claims c = some a → claims d = some a → c = d
  credited : ∀ a, present a → a ∈ settled ∨ ∃ c, claims c = some a

section Credits

omit [DecidableEq κ] [DecidableEq α]

variable {present present' : α → Prop} {claims : κ → Option α} {settled settled' : List α}

theorem Credited.start (hnone : ∀ a, ¬ present a) :
    Credited present (fun _ : κ => none) [] := by
  constructor
  · exact List.nodup_nil
  · nofun
  · nofun
  · nofun
  · exact fun a ha => absurd ha (hnone a)

theorem Credited.congr (h : Credited present claims settled)
    (hiff : ∀ a, present' a ↔ present a) : Credited present' claims settled := by
  have heq : present' = present := funext fun a => propext (hiff a)
  exact heq ▸ h

theorem Credited.all_settled (h : Credited present claims settled) (hnone : ∀ c, claims c = none) :
    ∀ a, present a ↔ a ∈ settled := by
  intro a
  constructor
  · intro ha
    rcases h.credited a ha with ha | ⟨c, hc⟩
    · exact ha
    · rw [hnone] at hc
      cases hc
  · exact h.here a

theorem Credited.grant (h : Credited present claims settled) (hnew : ¬ present a)
    (hpresent : ∀ b, present' b ↔ present b ∨ b = a) : Credited present' claims (a :: settled) := by
  constructor
  · exact List.nodup_cons.mpr ⟨fun ha => hnew (h.here a ha), h.nodup⟩
  · intro b hb
    rcases List.mem_cons.mp hb with hb | hb
    · exact (hpresent b).mpr (.inr hb)
    · exact (hpresent b).mpr (.inl (h.here b hb))
  · intro c b hc
    obtain ⟨hb, hunsettled⟩ := h.claimed c b hc
    refine ⟨(hpresent b).mpr (.inl hb), fun hmem => ?_⟩
    rcases List.mem_cons.mp hmem with rfl | hmem
    · exact hnew hb
    · exact hunsettled hmem
  · exact h.sole
  · intro b hb
    rcases (hpresent b).mp hb with hb | rfl
    · exact (h.credited b hb).imp_left (List.mem_cons_of_mem _)
    · exact .inl (List.mem_cons_self ..)

variable [DecidableEq κ]

theorem Credited.promise (h : Credited present claims settled) (hnew : ¬ present a)
    (hc : claims c = none) (hpresent : ∀ b, present' b ↔ present b ∨ b = a) :
    Credited present' (Function.update claims c (some a)) settled := by
  have hclaims : ∀ d b, Function.update claims c (some a) d = some b →
      d = c ∧ b = a ∨ d ≠ c ∧ claims d = some b := by
    intro d b hd
    by_cases hdc : d = c
    · subst hdc
      rw [Function.update_self, Option.some.injEq] at hd
      exact .inl ⟨rfl, hd.symm⟩
    · rw [Function.update_of_ne hdc] at hd
      exact .inr ⟨hdc, hd⟩
  constructor
  · exact h.nodup
  · exact fun b hb => (hpresent b).mpr (.inl (h.here b hb))
  · intro d b hd
    rcases hclaims d b hd with ⟨-, rfl⟩ | ⟨-, hd⟩
    · exact ⟨(hpresent b).mpr (.inr rfl), fun hb => hnew (h.here b hb)⟩
    · exact (h.claimed d b hd).imp_left fun hb => (hpresent b).mpr (.inl hb)
  · intro d e b hd he
    rcases hclaims d b hd with ⟨hdc, hba⟩ | ⟨hdc, hd⟩
    · rcases hclaims e b he with ⟨hec, -⟩ | ⟨-, he⟩
      · exact hdc.trans hec.symm
      · exact absurd (hba ▸ (h.claimed e b he).1) hnew
    · rcases hclaims e b he with ⟨-, hba⟩ | ⟨-, he⟩
      · exact absurd (hba ▸ (h.claimed d b hd).1) hnew
      · exact h.sole d e b hd he
  · intro b hb
    rcases (hpresent b).mp hb with hb | rfl
    · refine (h.credited b hb).imp_right fun ⟨d, hd⟩ => ⟨d, ?_⟩
      have hdc : d ≠ c := by
        rintro rfl
        rw [hc] at hd
        cases hd
      rw [Function.update_of_ne hdc]
      exact hd
    · exact .inr ⟨c, Function.update_self ..⟩

theorem Credited.redeem (h : Credited present claims settled) (hc : claims c = some a)
    (hperm : settled'.Perm (a :: settled)) :
    Credited present (Function.update claims c none) settled' := by
  obtain ⟨ha, hunsettled⟩ := h.claimed c a hc
  have hclaims : ∀ d b, Function.update claims c none d = some b → d ≠ c ∧ claims d = some b := by
    intro d b hd
    by_cases hdc : d = c
    · subst hdc
      rw [Function.update_self] at hd
      cases hd
    · rw [Function.update_of_ne hdc] at hd
      exact ⟨hdc, hd⟩
  constructor
  · exact hperm.nodup_iff.mpr (List.nodup_cons.mpr ⟨hunsettled, h.nodup⟩)
  · intro b hb
    rcases List.mem_cons.mp (hperm.mem_iff.mp hb) with rfl | hb
    · exact ha
    · exact h.here b hb
  · intro d b hd
    obtain ⟨hdc, hd⟩ := hclaims d b hd
    obtain ⟨hb, hout⟩ := h.claimed d b hd
    refine ⟨hb, fun hmem => ?_⟩
    rcases List.mem_cons.mp (hperm.mem_iff.mp hmem) with rfl | hmem
    · exact hdc (h.sole d c b hd hc)
    · exact hout hmem
  · intro d e b hd he
    exact h.sole d e b (hclaims d b hd).2 (hclaims e b he).2
  · intro b hb
    by_cases hba : b = a
    · exact .inl (hperm.mem_iff.mpr (hba ▸ List.mem_cons_self ..))
    · rcases h.credited b hb with hb | ⟨d, hd⟩
      · exact .inl (hperm.mem_iff.mpr (List.mem_cons_of_mem _ hb))
      · refine .inr ⟨d, ?_⟩
        have hdc : d ≠ c := by
          rintro rfl
          rw [hc] at hd
          exact hba (Option.some.inj hd).symm
        rw [Function.update_of_ne hdc]
        exact hd

end Credits

end FileMirror.Deliveries
