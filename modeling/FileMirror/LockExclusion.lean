import FileMirror.RepositoryLock

set_option autoImplicit false

/-!
# Locks exclude each other

The lock protocol under the bucket's clock. Of two acquires that succeed, one of them exclusive, one
lock had been released when the other's acquire listed the locks.
-/

namespace FileMirror

open Transitions

/-- `wrote` has the time of each lock's last write by its run, and `preceded` the locks that had been
released when a run listed the locks. -/
structure LockTimes where
  world : LockWorld
  clock : ℕ
  wrote : StringMap ℕ
  preceded : StringMap (List String)

def LockStep.stamp : LockStep → Option (Option ℕ)
  | .write _ _ modified | .rewrite _ modified => some modified
  | _ => none

def LockStep.lists : LockStep → Bool
  | .list _ _ => true
  | _ => false

/-- `acquire` returned the lock, and neither `release` nor the end of the process has come. -/
def Holder.Holds (h : Holder) : Prop := h.phase.granted = true ∧ h.phase ≠ .released

namespace LockTimes

def released (w : LockWorld) : List String :=
  (w.holders.toList.filter fun entry => entry.2.phase = .released).map Prod.fst

def after (x : LockTimes) (time : ℕ) (s : LockStep) (w : LockWorld) : LockTimes where
  world := w
  clock := time
  wrote := if s.stamp.isSome then x.wrote.insert s.key time else x.wrote
  preceded := if s.lists then x.preceded.insert s.key (released x.world) else x.preceded

/-- A step at a time of the bucket's clock, which does not go back. -/
def step (x : LockTimes) (s : ℕ × LockStep) : Option LockTimes :=
  if x.clock ≤ s.1 ∧ s.2.stamp.getD (some s.1) = some s.1 then
    (x.world.step s.2).map (x.after s.1 s.2)
  else none

/-- The lock of every run that holds one was written less than `STALE_AFTER` ago. -/
def Kept (x : LockTimes) : Prop :=
  ∀ (key : String) (h : Holder), x.world.holders[key]? = some h → h.Holds →
    ∃ modified, x.wrote[key]? = some modified ∧ x.clock < modified + staleAfter

def Refreshed (x : LockTimes) (s : ℕ × LockStep) : Prop := ∀ y, x.step s = some y → y.Kept

/-- The lock `a` had been released when the run of `b` listed the locks. -/
def Precedes (x : LockTimes) (a b : String) : Prop := ∃ l, x.preceded[b]? = some l ∧ a ∈ l

def Late (x : LockTimes) (key : String) (h : Holder) : Prop :=
  h.phase.granted = false ∧
    ∃ modified, x.wrote[key]? = some modified ∧ modified + staleAfter ≤ x.clock

def Never (x : LockTimes) (key : String) (h : Holder) : Prop :=
  h.phase = .yielding ∨ h.phase = .failed ∨ x.Late key h

end LockTimes

/-- The run has still to read the lock `other`, or to list the locks. -/
def Holder.Pending (h : Holder) (other : String) : Prop :=
  h.phase = .written ∨ ∃ l, h.phase = .judging l ∧ other ∈ l

namespace LockTimes

def Settled (x : LockTimes) (a : String) (h : Holder) (b : String) (g : Holder) : Prop :=
  (x.Never a h ∨ x.Never b g) ∨ (h.Pending b ∨ g.Pending a) ∨ x.Precedes a b ∨ x.Precedes b a

/-- The lock `key` belongs to a run that is over or late, or to no run that is still to come. -/
def Gone (x : LockTimes) (key : String) : Prop :=
  match x.world.holders[key]? with
  | some h => x.Late key h ∨ h.phase = .released
  | none => key ∈ x.world.locks ∨ key ∈ x.world.removed

structure Single (x : LockTimes) (key : String) (h : Holder) : Prop where
  wrote : ∃ modified, x.wrote[key]? = some modified ∧ modified ≤ x.clock
  object : ∀ lock, x.world.locks[key]? = some lock → lock = ⟨some h.exclusive, x.wrote[key]?⟩
  placed : key ∈ x.world.locks ∨ x.Late key h ∨ h.phase = .failed ∨ h.phase = .released
  refresher : h.refresher ≠ .stopped → h.Holds
  acquiredAt : h.acquiredAt ≤ x.clock ∨ x.Late key h

structure Sound (x : LockTimes) : Prop where
  single : ∀ (key : String) (h : Holder), x.world.holders[key]? = some h → x.Single key h
  kept : x.Kept
  removing : ∀ (key : String) (h : Holder) (l : List String), x.world.holders[key]? = some h →
    h.phase = .removing l → ∀ other ∈ l, x.Gone other
  settled : ∀ (a b : String) (h g : Holder), a ≠ b → x.world.holders[a]? = some h →
    x.world.holders[b]? = some g → (h.exclusive = true ∨ g.exclusive = true) → x.Settled a h b g
  preceded : ∀ a b, x.Precedes a b → ∃ h, x.world.holders[a]? = some h ∧ h.phase = .released

/-- A step of the run `key`, which leaves the others' locks unless they are over or late. -/
structure Moves (x y : LockTimes) (key : String) (h' : Holder) : Prop where
  holders : y.world.holders = x.world.holders.insert key h'
  clock : x.clock ≤ y.clock
  wrote : ∀ other, key ≠ other → y.wrote[other]? = x.wrote[other]?
  preceded : ∀ other, key ≠ other → y.preceded[other]? = x.preceded[other]?
  locks : ∀ (other : String) (g : Holder), key ≠ other → x.world.holders[other]? = some g →
    y.world.locks[other]? = x.world.locks[other]? ∨
      y.world.locks[other]? = none ∧ (x.Late other g ∨ g.phase = .released)
  unheld : ∀ other, key ≠ other → other ∈ x.world.locks ∨ other ∈ x.world.removed →
    other ∈ y.world.locks ∨ other ∈ y.world.removed

section Frames

variable {x y : LockTimes} {key other : String} {h h' g : Holder}

theorem Late.frame (hlate : x.Late key h) (hgranted : h'.phase.granted = false)
    (hwrote : y.wrote[key]? = x.wrote[key]?) (hclock : x.clock ≤ y.clock) : y.Late key h' := by
  obtain ⟨-, modified, hmodified, hold⟩ := hlate
  exact ⟨hgranted, modified, hwrote.trans hmodified, hold.trans hclock⟩

theorem Never.frame (hnever : x.Never key h) (hwrote : y.wrote[key]? = x.wrote[key]?)
    (hclock : x.clock ≤ y.clock) : y.Never key h := by
  rcases hnever with hphase | hphase | hlate
  · exact .inl hphase
  · exact .inr (.inl hphase)
  · exact .inr (.inr (hlate.frame hlate.1 hwrote hclock))

theorem Never.not_granted (hnever : x.Never key h) : h.phase.granted = false := by
  rcases hnever with hphase | hphase | hlate
  · rw [hphase]
    rfl
  · rw [hphase]
    rfl
  · exact hlate.1

theorem pending_not_granted (hpending : h.Pending other) :
    h.phase.granted = false := by
  rcases hpending with hphase | ⟨l, hphase, -⟩
  · rw [hphase]
    rfl
  · rw [hphase]
    rfl

theorem Settled.symm {a b : String} (hsettled : x.Settled a h b g) : x.Settled b g a h :=
  hsettled.imp Or.symm (.imp Or.symm Or.symm)

theorem Single.frame (hsingle : x.Single key h) (hwrote : y.wrote[key]? = x.wrote[key]?)
    (hclock : x.clock ≤ y.clock)
    (hlocks : y.world.locks[key]? = x.world.locks[key]? ∨
      y.world.locks[key]? = none ∧ (x.Late key h ∨ h.phase = .released)) : y.Single key h where
  wrote := by
    obtain ⟨modified, hmodified, hle⟩ := hsingle.wrote
    exact ⟨modified, hwrote.trans hmodified, hle.trans hclock⟩
  object lock hlock := by
    rcases hlocks with hsame | ⟨hnone, -⟩
    · rw [hwrote]
      exact hsingle.object lock (hsame ▸ hlock)
    · rw [hnone] at hlock
      cases hlock
  placed := by
    have hlate : x.Late key h → y.Late key h := fun hlate => hlate.frame hlate.1 hwrote hclock
    rcases hlocks with hsame | ⟨-, hlate' | hreleased⟩
    · have hmem : key ∈ x.world.locks → key ∈ y.world.locks := by
        simp only [Std.ExtTreeMap.mem_iff_isSome_getElem?, hsame, imp_self]
      exact hsingle.placed.imp hmem (.imp_left hlate)
    · exact .inr (.inl (hlate hlate'))
    · exact .inr (.inr (.inr hreleased))
  refresher := hsingle.refresher
  acquiredAt := hsingle.acquiredAt.imp (fun hle => hle.trans hclock) fun hlate =>
    hlate.frame hlate.1 hwrote hclock

theorem Gone.moves (hmoves : x.Moves y key h') (hkey : key = other → y.Gone other)
    (hgone : x.Gone other) : y.Gone other := by
  by_cases hne : key = other
  · exact hkey hne
  · unfold Gone at hgone ⊢
    rw [hmoves.holders, StringMap.getElem?_insert, if_neg hne]
    cases hg : x.world.holders[other]? with
    | none =>
        rw [hg] at hgone
        exact hmoves.unheld other hne hgone
    | some g =>
        rw [hg] at hgone
        exact hgone.imp_left fun hlate =>
          hlate.frame hlate.1 (hmoves.wrote other hne) hmoves.clock

theorem Precedes.moves {a b : String} (hmoves : x.Moves y key h') (hne : key ≠ b) :
    y.Precedes a b ↔ x.Precedes a b := by
  unfold Precedes
  rw [hmoves.preceded b hne]

theorem Sound.moves (hx : x.Sound) (hmoves : x.Moves y key h') (hkept : y.Kept)
    (hself : y.Single key h') (hgone : x.Gone key → y.Gone key)
    (hremoving : ∀ l, h'.phase = .removing l → ∀ other ∈ l, x.Gone other)
    (hsettled : ∀ (other : String) (g : Holder), key ≠ other →
      x.world.holders[other]? = some g → (h'.exclusive = true ∨ g.exclusive = true) →
      y.Settled key h' other g)
    (hpreceded : ∀ a, y.Precedes a key → ∃ g, x.world.holders[a]? = some g ∧ g.phase = .released)
    (hreleased : ∀ h, x.world.holders[key]? = some h → h.phase = .released →
      h'.phase = .released) : y.Sound := by
  have hother : ∀ other, key ≠ other → y.world.holders[other]? = x.world.holders[other]? := by
    intro other hne
    rw [hmoves.holders, StringMap.getElem?_insert, if_neg hne]
  have hkey : y.world.holders[key]? = some h' := by
    rw [hmoves.holders, StringMap.getElem?_insert, if_pos rfl]
  have hstill : ∀ other, x.Gone other → y.Gone other := fun other hover =>
    hover.moves hmoves fun heq => heq ▸ hgone (heq ▸ hover)
  constructor
  · intro other g hg
    by_cases hne : key = other
    · subst hne
      rw [hkey] at hg
      cases hg
      exact hself
    · rw [hother other hne] at hg
      exact (hx.single other g hg).frame (hmoves.wrote other hne) hmoves.clock
        (hmoves.locks other g hne hg)
  · exact hkept
  · intro other g l hg hphase o ho
    apply hstill
    by_cases hne : key = other
    · subst hne
      rw [hkey] at hg
      cases hg
      exact hremoving l hphase o ho
    · rw [hother other hne] at hg
      exact hx.removing other g l hg hphase o ho
  · intro a b h g hab ha hb hexclusive
    by_cases hka : key = a
    · subst hka
      rw [hkey] at ha
      cases ha
      exact hsettled b g hab (hother b hab ▸ hb) hexclusive
    by_cases hkb : key = b
    · subst hkb
      rw [hkey] at hb
      cases hb
      exact (hsettled a h hka (hother a hka ▸ ha) hexclusive.symm).symm
    · rw [hother a hka] at ha
      rw [hother b hkb] at hb
      refine (hx.settled a b h g hab ha hb hexclusive).imp (.imp ?_ ?_) (.imp id (.imp ?_ ?_))
      · exact fun hnever => hnever.frame (hmoves.wrote a hka) hmoves.clock
      · exact fun hnever => hnever.frame (hmoves.wrote b hkb) hmoves.clock
      · exact (Precedes.moves hmoves hkb).mpr
      · exact (Precedes.moves hmoves hka).mpr
  · intro a b hab
    have hbefore : ∃ g, x.world.holders[a]? = some g ∧ g.phase = .released := by
      by_cases hkb : key = b
      · subst hkb
        exact hpreceded a hab
      · exact hx.preceded a b ((Precedes.moves hmoves hkb).mp hab)
    obtain ⟨g, hg, hphase⟩ := hbefore
    by_cases hka : key = a
    · subst hka
      exact ⟨h', hkey, hreleased g hg hphase⟩
    · exact ⟨g, (hother a hka).trans hg, hphase⟩

theorem Settled.granted (hsettled : x.Settled key h other g) (hgranted : h.phase.granted = true)
    (hne : key ≠ other) (hmoves : x.Moves y key h') (hsame : ∀ a, y.Precedes a key ↔ x.Precedes a key) :
    y.Settled key h' other g := by
  rcases hsettled with (hnever | hnever) | (hpending | hpending) | hover
  · rw [hnever.not_granted] at hgranted
    cases hgranted
  · exact .inl (.inr (hnever.frame (hmoves.wrote other hne) hmoves.clock))
  · rw [pending_not_granted hpending] at hgranted
    cases hgranted
  · exact .inr (.inl (.inr hpending))
  · exact .inr (.inr (hover.imp (Precedes.moves hmoves hne).mpr (hsame other).mpr))

theorem holds_of_held (hphase : h.phase = .held) : h.Holds := by
  unfold Holder.Holds
  rw [hphase]
  exact ⟨rfl, LockPhase.noConfusion⟩

theorem Late.not_holds (hlate : x.Late key h) : ¬ h.Holds := by
  rintro ⟨hgranted, -⟩
  rw [hlate.1] at hgranted
  cases hgranted

theorem Gone.not_holds (hgone : x.Gone key) (hold : x.world.holders[key]? = some h) :
    ¬ h.Holds := by
  unfold Gone at hgone
  rw [hold] at hgone
  rcases hgone with hlate | hreleased
  · exact hlate.not_holds
  · exact fun hholds => hholds.2 hreleased

theorem Gone.late (hgone : x.Gone key) (hold : x.world.holders[key]? = some h)
    (hgranted : h.phase.granted = false) : x.Late key h := by
  unfold Gone at hgone
  rw [hold] at hgone
  apply hgone.resolve_right
  intro hreleased
  rw [hreleased] at hgranted
  cases hgranted

theorem Gone.waits (hgone : x.Gone key) (hold : x.world.holders[key]? = some h)
    (hmoves : x.Moves y key h') (hwrote : y.wrote[key]? = x.wrote[key]?)
    (hgranted : h.phase.granted = false) (hgranted' : h'.phase.granted = false) : y.Gone key := by
  have hlate := (hgone.late hold hgranted).frame hgranted' hwrote hmoves.clock
  unfold Gone
  rw [hmoves.holders, StringMap.getElem?_insert, if_pos rfl]
  exact .inl hlate

theorem Sound.holding (hx : x.Sound) (hold : x.world.holders[key]? = some h) (hholds : h.Holds)
    (hmoves : x.Moves y key h') (hkept : y.Kept) (hexclusive : h'.exclusive = h.exclusive)
    (hself : y.Single key h')
    (hremoving : ∀ l, h'.phase = .removing l → ∀ other ∈ l, x.Gone other)
    (hpreceded : y.preceded = x.preceded) : y.Sound := by
  have hsame : ∀ a, y.Precedes a key ↔ x.Precedes a key := by
    intro a
    unfold Precedes
    rw [hpreceded]
  apply hx.moves hmoves hkept hself ?_ hremoving
  · intro other g hne hg hconflict
    rw [hexclusive] at hconflict
    exact (hx.settled key other h g hne hold hg hconflict).granted hholds.1 hne hmoves hsame
  · exact fun a ha => hx.preceded a key ((hsame a).mp ha)
  · intro h₀ hold₀ hreleased
    rw [hold] at hold₀
    cases hold₀
    exact absurd hreleased hholds.2
  · exact fun hgone => absurd hholds (hgone.not_holds hold)

theorem Sound.ends (hx : x.Sound) (hold : x.world.holders[key]? = some h)
    (hmoves : x.Moves y key h') (hkept : y.Kept) (hexclusive : h'.exclusive = h.exclusive)
    (hself : y.Single key h')
    (hphase : h'.phase = if h.phase.granted then .released else .failed)
    (hwrote : y.wrote[key]? = x.wrote[key]?) (hpreceded : y.preceded = x.preceded) :
    y.Sound := by
  have hsame : ∀ a, y.Precedes a key ↔ x.Precedes a key := by
    intro a
    unfold Precedes
    rw [hpreceded]
  have hremoving : ∀ l, h'.phase ≠ .removing l := by
    intro l
    rw [hphase]
    split_ifs <;> exact LockPhase.noConfusion
  apply hx.moves hmoves hkept hself ?_ fun l hl => absurd hl (hremoving l)
  · intro other g hne hg hconflict
    rw [hexclusive] at hconflict
    cases hgranted : h.phase.granted with
    | true =>
        exact (hx.settled key other h g hne hold hg hconflict).granted hgranted hne hmoves hsame
    | false =>
        rw [hgranted] at hphase
        exact .inl (.inl (.inr (.inl hphase)))
  · exact fun a ha => hx.preceded a key ((hsame a).mp ha)
  · intro h₀ hold₀ hreleased
    rw [hold] at hold₀
    cases hold₀
    rw [hphase, hreleased]
    rfl
  · intro hgone
    cases hgranted : h.phase.granted with
    | true =>
        rw [hgranted] at hphase
        unfold Gone
        rw [hmoves.holders, StringMap.getElem?_insert, if_pos rfl]
        exact .inr hphase
    | false =>
        rw [hgranted] at hphase
        exact hgone.waits hold hmoves hwrote hgranted (by rw [hphase]; rfl)

theorem mem_others {w : LockWorld} {now : ℕ} {fresh : Bool} :
    other ∈ w.others key now fresh ↔ other ≠ key ∧
      ∃ lock, w.locks[other]? = some lock ∧ isFresh lock.lastModified now = fresh := by
  unfold LockWorld.others
  simp only [List.mem_map, List.mem_filter, Std.ExtTreeMap.mem_toList_iff_getElem?_eq_some,
    Prod.exists, exists_and_right, exists_eq_right, Bool.and_eq_true, decide_eq_true_eq, beq_iff_eq]
  constructor
  · rintro ⟨lock, hlock, hne, hfresh⟩
    exact ⟨hne, lock, hlock, hfresh⟩
  · rintro ⟨hne, lock, hlock, hfresh⟩
    exact ⟨lock, hlock, hne, hfresh⟩

theorem stale_of_not_fresh {modified : Option ℕ} {now : ℕ} (hstale : isFresh modified now = false) :
    ∃ time, modified = some time ∧ time + staleAfter ≤ now := by
  cases modified with
  | none => cases hstale
  | some time =>
      simp only [isFresh, Bool.or_eq_false_iff, decide_eq_false_iff_not] at hstale
      exact ⟨time, rfl, by omega⟩

theorem Sound.gone_of_stale (hx : x.Sound) {lock : LockObject} {now : ℕ} (hnow : now ≤ x.clock)
    (hlock : x.world.locks[other]? = some lock) (hstale : isFresh lock.lastModified now = false) :
    x.Gone other := by
  unfold Gone
  cases hg : x.world.holders[other]? with
  | none =>
      exact .inl (Std.ExtTreeMap.mem_iff_isSome_getElem?.mpr (hlock ▸ rfl))
  | some g =>
      obtain ⟨time, htime, hold⟩ := stale_of_not_fresh hstale
      have hobject := (hx.single other g hg).object lock hlock
      have hwrote : x.wrote[other]? = some time := by
        rw [hobject] at htime
        exact htime
      by_cases hphase : g.phase = .released
      · exact .inr hphase
      · refine .inl ⟨?_, time, hwrote, hold.trans hnow⟩
        by_contra hgranted
        obtain ⟨modified, hmodified, hkept⟩ :=
          hx.kept other g hg ⟨Bool.not_eq_false _ ▸ hgranted, hphase⟩
        rw [hwrote] at hmodified
        cases hmodified
        omega

theorem Single.own (hsingle : x.Single key h) (hexclusive : h'.exclusive = h.exclusive)
    (hwrote : y.wrote[key]? = x.wrote[key]?) (hclock : x.clock ≤ y.clock)
    (hlocks : ∀ lock, y.world.locks[key]? = some lock → x.world.locks[key]? = some lock)
    (hplaced : key ∈ y.world.locks ∨ y.Late key h' ∨ h'.phase = .failed ∨ h'.phase = .released)
    (hrefresher : h'.refresher ≠ .stopped → h'.Holds)
    (hacquired : h'.acquiredAt ≤ y.clock ∨ y.Late key h') : y.Single key h' where
  wrote := by
    obtain ⟨modified, hmodified, hle⟩ := hsingle.wrote
    exact ⟨modified, hwrote.trans hmodified, hle.trans hclock⟩
  object lock hlock := by
    rw [hexclusive, hwrote]
    exact hsingle.object lock (hlocks lock hlock)
  placed := hplaced
  refresher := hrefresher
  acquiredAt := hacquired

theorem Single.placed_of_holds (hsingle : x.Single key h) (hholds : h.Holds) :
    key ∈ x.world.locks := by
  rcases hsingle.placed with hmem | hlate | hphase | hphase
  · exact hmem
  · exact absurd hholds hlate.not_holds
  · obtain ⟨hgranted, -⟩ := hholds
    rw [hphase] at hgranted
    cases hgranted
  · exact absurd hphase hholds.2

theorem Single.acquired_of_holds (hsingle : x.Single key h) (hholds : h.Holds) :
    h.acquiredAt ≤ x.clock :=
  hsingle.acquiredAt.resolve_right fun hlate => hlate.not_holds hholds

theorem Single.holding (hsingle : x.Single key h) (hholds : h.Holds) (hholds' : h'.Holds)
    (hexclusive : h'.exclusive = h.exclusive) (hacquired : h'.acquiredAt = h.acquiredAt)
    (hwrote : y.wrote[key]? = x.wrote[key]?) (hclock : x.clock ≤ y.clock)
    (hlocks : y.world.locks[key]? = x.world.locks[key]?) : y.Single key h' := by
  apply hsingle.own hexclusive hwrote hclock
  · intro lock hlock
    exact hlocks ▸ hlock
  · left
    rw [Std.ExtTreeMap.mem_iff_isSome_getElem?, hlocks]
    exact Std.ExtTreeMap.mem_iff_isSome_getElem?.mp (hsingle.placed_of_holds hholds)
  · exact fun _ => hholds'
  · left
    rw [hacquired]
    exact (hsingle.acquired_of_holds hholds).trans hclock

end Frames

section Steps

variable {x y : LockTimes} {w : LockWorld} {time : ℕ} {s : LockStep} {h h' : Holder}

theorem moves_after (hclock : x.clock ≤ time)
    (hholders : w.holders = x.world.holders.insert s.key h')
    (hlocks : ∀ (other : String) (g : Holder), s.key ≠ other → x.world.holders[other]? = some g →
      w.locks[other]? = x.world.locks[other]? ∨
        w.locks[other]? = none ∧ (x.Late other g ∨ g.phase = .released))
    (hunheld : ∀ other, s.key ≠ other → other ∈ x.world.locks ∨ other ∈ x.world.removed →
      other ∈ w.locks ∨ other ∈ w.removed) : x.Moves (x.after time s w) s.key h' where
  holders := hholders
  clock := hclock
  wrote other hne := by
    simp only [after]
    split_ifs
    · rw [StringMap.getElem?_insert, if_neg hne]
    · rfl
  preceded other hne := by
    simp only [after]
    split_ifs
    · rw [StringMap.getElem?_insert, if_neg hne]
    · rfl
  locks := hlocks
  unheld := hunheld

theorem moves_same (hclock : x.clock ≤ time)
    (hholders : w.holders = x.world.holders.insert s.key h') (hlocks : w.locks = x.world.locks)
    (hremoved : w.removed = x.world.removed) : x.Moves (x.after time s w) s.key h' := by
  apply moves_after hclock hholders
  · exact fun other g _ _ => .inl (by rw [hlocks])
  · intro other _ hmem
    rw [hlocks, hremoved]
    exact hmem

theorem moves_erase (hclock : x.clock ≤ time)
    (hholders : w.holders = x.world.holders.insert s.key h')
    (hlocks : w.locks = x.world.locks.erase s.key) (hremoved : w.removed = x.world.removed) :
    x.Moves (x.after time s w) s.key h' := by
  have hother : ∀ other, s.key ≠ other → w.locks[other]? = x.world.locks[other]? := by
    intro other hne
    rw [hlocks, StringMap.getElem?_erase, if_neg hne]
  apply moves_after hclock hholders
  · exact fun other g hne _ => .inl (hother other hne)
  · intro other hne hmem
    rw [hremoved, Std.ExtTreeMap.mem_iff_isSome_getElem?, hother other hne,
      ← Std.ExtTreeMap.mem_iff_isSome_getElem?]
    exact hmem

theorem Sound.keeps (hx : x.Sound) (hold : x.world.holders[s.key]? = some h) (hclock : x.clock ≤ time)
    (hkept : (x.after time s w).Kept) (hholders : w.holders = x.world.holders.insert s.key h')
    (hlocks : w.locks = x.world.locks) (hremoved : w.removed = x.world.removed)
    (hholds : h.Holds) (hholds' : h'.Holds) (hexclusive : h'.exclusive = h.exclusive)
    (hacquired : h'.acquiredAt = h.acquiredAt) (hstamp : s.stamp = none)
    (hlists : s.lists = false)
    (hremoving : ∀ l, h'.phase = .removing l → ∀ other ∈ l, x.Gone other) :
    (x.after time s w).Sound := by
  have hwrote : (x.after time s w).wrote = x.wrote := by
    simp only [after, hstamp, Option.isSome_none, Bool.false_eq_true, if_false]
  have hpreceded : (x.after time s w).preceded = x.preceded := by
    simp only [after, hlists, Bool.false_eq_true, if_false]
  apply hx.holding hold hholds (moves_same hclock hholders hlocks hremoved) hkept hexclusive ?_
    hremoving hpreceded
  apply (hx.single s.key h hold).holding hholds hholds' hexclusive hacquired ?_ hclock
  · exact congrArg (·[s.key]?) hlocks
  · rw [hwrote]

theorem Single.asleep {key : String} (hsingle : x.Single key h) (hwaits : h.phase.granted = false) :
    h.refresher = .stopped := by
  by_contra hawake
  obtain ⟨hgranted, -⟩ := hsingle.refresher hawake
  rw [hwaits] at hgranted
  cases hgranted

theorem mem_released {key : String} (hold : x.world.holders[key]? = some h)
    (hphase : h.phase = .released) : key ∈ released x.world := by
  unfold released
  simp only [List.mem_map, List.mem_filter, Prod.exists, exists_and_right, exists_eq_right,
    Std.ExtTreeMap.mem_toList_iff_getElem?_eq_some, decide_eq_true_eq]
  exact ⟨h, hold, hphase⟩

theorem released_holder {key : String} (hmem : key ∈ released x.world) :
    ∃ h, x.world.holders[key]? = some h ∧ h.phase = .released := by
  unfold released at hmem
  simp only [List.mem_map, List.mem_filter, Prod.exists, exists_and_right, exists_eq_right,
    Std.ExtTreeMap.mem_toList_iff_getElem?_eq_some, decide_eq_true_eq] at hmem
  exact hmem

theorem Single.placed_or_late {key : String} (hsingle : x.Single key h)
    (hfailed : h.phase ≠ .failed) (hreleased : h.phase ≠ .released) :
    key ∈ x.world.locks ∨ x.Late key h :=
  hsingle.placed.imp_right fun hover =>
    hover.resolve_right (not_or.mpr ⟨hfailed, hreleased⟩)

theorem Never.late {key : String} {l : List String} (hnever : x.Never key h)
    (hphase : h.phase = .judging l) : x.Late key h := by
  rcases hnever with hnever | hnever | hlate
  · rw [hphase] at hnever
    cases hnever
  · rw [hphase] at hnever
    cases hnever
  · exact hlate

theorem mem_of_pending {other : String} {l : List String} (hpending : h.Pending other)
    (hphase : h.phase = .judging l) : other ∈ l := by
  rcases hpending with hpending | ⟨l', hl, hmem⟩
  · rw [hphase] at hpending
    cases hpending
  · rw [hphase] at hl
    cases hl
    exact hmem

theorem Single.own_time {key : String} (hsingle : x.Single key h) (hphase : h.phase = .written)
    (now : ℕ) :
    (x.world.locks[key]?.bind LockObject.lastModified).getD now ≤ x.clock ∨ x.Late key h := by
  cases hlock : x.world.locks[key]? with
  | some lock =>
      left
      obtain ⟨modified, hmodified, hle⟩ := hsingle.wrote
      rw [Option.bind_some, hsingle.object lock hlock, hmodified]
      exact hle
  | none =>
      right
      rcases hsingle.placed_or_late (by simp [hphase]) (by simp [hphase]) with hmem | hlate
      · rw [Std.ExtTreeMap.mem_iff_isSome_getElem?, hlock] at hmem
        cases hmem
      · exact hlate

theorem Sound.sees (hx : x.Sound) {key other : String} {g : Holder} (hne : key ≠ other)
    (hg : x.world.holders[other]? = some g) {acquiredAt : ℕ} (htime : acquiredAt ≤ x.clock) :
    x.Never other g ∨ g.phase = .released ∨ other ∈ x.world.others key acquiredAt true := by
  rcases (hx.single other g hg).placed with hmem | hlate | hfailed | hreleased
  · obtain ⟨lock, hlock⟩ :=
      Option.isSome_iff_exists.mp (Std.ExtTreeMap.mem_iff_isSome_getElem?.mp hmem)
    cases hfresh : isFresh lock.lastModified acquiredAt with
    | true => exact .inr (.inr (mem_others.mpr ⟨hne.symm, lock, hlock, hfresh⟩))
    | false =>
        have hgone := hx.gone_of_stale htime hlock hfresh
        unfold Gone at hgone
        rw [hg] at hgone
        rcases hgone with hlate | hreleased
        · exact .inl (.inr (.inr hlate))
        · exact .inr (.inl hreleased)
  · exact .inl (.inr (.inr hlate))
  · exact .inl (.inr (.inl hfailed))
  · exact .inr (.inl hreleased)

theorem Sound.list (hx : x.Sound) {key : String} {now : ℕ} (hold : x.world.holders[key]? = some h)
    (hphase : h.phase = .written) (hclock : x.clock ≤ time)
    (hkept : (x.after time (.list key now) w).Kept)
    (hholders : w.holders = x.world.holders.insert key h') (hlocks : w.locks = x.world.locks)
    (hremoved : w.removed = x.world.removed)
    (hphase' : h'.phase = .judging (x.world.others key h'.acquiredAt true))
    (hexclusive : h'.exclusive = h.exclusive) (hrefresher : h'.refresher = h.refresher)
    (htime : h'.acquiredAt ≤ x.clock ∨ x.Late key h) : (x.after time (.list key now) w).Sound := by
  have hsingle := hx.single key h hold
  have hwaits : h'.phase.granted = false := by
    rw [hphase']
    rfl
  have hwrote : (x.after time (.list key now) w).wrote[key]? = x.wrote[key]? := rfl
  have hmoves : x.Moves (x.after time (.list key now) w) key h' :=
    moves_same hclock hholders hlocks hremoved
  have hlate : x.Late key h → Late (x.after time (.list key now) w) key h' :=
    fun hlate => hlate.frame hwaits hwrote hclock
  have hprecedes : ∀ other,
      Precedes (x.after time (.list key now) w) other key ↔ other ∈ released x.world := by
    intro other
    unfold Precedes
    simp only [after, LockStep.lists, LockStep.key, if_true, StringMap.getElem?_insert,
      Option.some.injEq, exists_eq_left']
  apply hx.moves hmoves hkept
  · apply hsingle.own hexclusive hwrote hclock
    · intro lock hlock
      exact hlocks ▸ hlock
    · have hplaced := hsingle.placed_or_late (by simp [hphase]) (by simp [hphase])
      change key ∈ w.locks ∨ _
      rw [hlocks]
      exact hplaced.imp id fun hover => .inl (hlate hover)
    · rw [hrefresher, hsingle.asleep (hphase ▸ rfl)]
      exact fun hne => absurd rfl hne
    · exact htime.imp (fun hle => hle.trans hclock) hlate
  · exact fun hgone => hgone.waits hold hmoves hwrote (hphase ▸ rfl) hwaits
  · intro l hl
    rw [hphase'] at hl
    cases hl
  · intro other g hne hg _
    rcases htime with htime | htime
    · rcases hx.sees hne hg htime with hnever | hreleased | hmem
      · exact .inl (.inr (hnever.frame (hmoves.wrote other hne) hclock))
      · exact .inr (.inr (.inr ((hprecedes other).mpr (mem_released hg hreleased))))
      · exact .inr (.inl (.inl (.inr ⟨_, hphase', hmem⟩)))
    · exact .inl (.inl (.inr (.inr (hlate htime))))
  · intro other hover
    exact released_holder ((hprecedes other).mp hover)
  · intro h₀ hold₀ hreleased
    rw [hold] at hold₀
    cases hold₀
    rw [hphase] at hreleased
    cases hreleased

theorem Sound.judge (hx : x.Sound) {key other : String} {rest : List String} {reads : Bool}
    (hold : x.world.holders[key]? = some h) (hphase : h.phase = .judging (other :: rest))
    (hclock : x.clock ≤ time) (hkept : (x.after time (.judge key reads) w).Kept)
    (hholders : w.holders = x.world.holders.insert key h') (hlocks : w.locks = x.world.locks)
    (hremoved : w.removed = x.world.removed)
    (hphase' : h'.phase = .yielding ∨ h'.phase = .judging rest ∧ h.exclusive = false ∧
      ∃ lock, x.world.locks[other]? = some lock ∧ lock.exclusive = some false)
    (hexclusive : h'.exclusive = h.exclusive) (hrefresher : h'.refresher = h.refresher)
    (hacquired : h'.acquiredAt = h.acquiredAt) : (x.after time (.judge key reads) w).Sound := by
  have hsingle := hx.single key h hold
  have hwaits : h.phase.granted = false := by
    rw [hphase]
    rfl
  have hwaits' : h'.phase.granted = false := by
    rcases hphase' with hphase' | ⟨hphase', -⟩
    · rw [hphase']
      rfl
    · rw [hphase']
      rfl
  have hwrote : (x.after time (.judge key reads) w).wrote[key]? = x.wrote[key]? := rfl
  have hmoves : x.Moves (x.after time (.judge key reads) w) key h' :=
    moves_same hclock hholders hlocks hremoved
  have hlate : x.Late key h → Late (x.after time (.judge key reads) w) key h' :=
    fun hlate => hlate.frame hwaits' hwrote hclock
  apply hx.moves hmoves hkept
  · apply hsingle.own hexclusive hwrote hclock
    · intro lock hlock
      exact hlocks ▸ hlock
    · have hplaced := hsingle.placed_or_late (by simp [hphase]) (by simp [hphase])
      change key ∈ w.locks ∨ _
      rw [hlocks]
      exact hplaced.imp id fun hover => .inl (hlate hover)
    · rw [hrefresher, hsingle.asleep hwaits]
      exact fun hne => absurd rfl hne
    · rw [hacquired]
      exact hsingle.acquiredAt.imp (fun hle => hle.trans hclock) hlate
  · exact fun hgone => hgone.waits hold hmoves hwrote hwaits hwaits'
  · intro l hl
    rw [hl] at hwaits'
    cases hwaits'
  · intro o g hne hg hconflict
    rcases hphase' with hphase' | ⟨hphase', hshared, lock, hlock, hread⟩
    · exact .inl (.inl (.inl hphase'))
    · rcases hx.settled key o h g hne hold hg (hexclusive ▸ hconflict) with
        (hnever | hnever) | (hpending | hpending) | hover
      · exact .inl (.inl (.inr (.inr (hlate (hnever.late hphase)))))
      · exact .inl (.inr (hnever.frame (hmoves.wrote o hne) hclock))
      · rcases List.mem_cons.mp (mem_of_pending hpending hphase) with rfl | hmem
        · have hobject := (hx.single o g hg).object lock hlock
          rw [hobject, Option.some.injEq] at hread
          rw [hexclusive, hshared, hread] at hconflict
          rcases hconflict with hconflict | hconflict <;> cases hconflict
        · exact .inr (.inl (.inl (.inr ⟨rest, hphase', hmem⟩)))
      · exact .inr (.inl (.inr hpending))
      · exact .inr (.inr hover)
  · exact fun a ha => hx.preceded a key ha
  · intro h₀ hold₀ hreleased
    rw [hold] at hold₀
    cases hold₀
    rw [hphase] at hreleased
    cases hreleased

theorem Sound.grant (hx : x.Sound) {key : String} (hold : x.world.holders[key]? = some h)
    (hphase : h.phase = .judging []) (hclock : x.clock ≤ time)
    (hkept : (x.after time (.grant key) w).Kept)
    (hholders : w.holders = x.world.holders.insert key h') (hlocks : w.locks = x.world.locks)
    (hremoved : w.removed = x.world.removed) (hphase' : h'.phase = .held)
    (hexclusive : h'.exclusive = h.exclusive) (hacquired : h'.acquiredAt = h.acquiredAt) :
    (x.after time (.grant key) w).Sound := by
  have hsingle := hx.single key h hold
  have hwrote : (x.after time (.grant key) w).wrote[key]? = x.wrote[key]? := rfl
  have hmoves : x.Moves (x.after time (.grant key) w) key h' :=
    moves_same hclock hholders hlocks hremoved
  have hholds : h'.Holds := holds_of_held hphase'
  have hkey : w.holders[key]? = some h' := by
    rw [hholders, StringMap.getElem?_insert, if_pos rfl]
  -- a run that was too late would hold a lock that nobody wrote in time
  have htimely : ¬ x.Late key h := by
    rintro ⟨-, modified, hmodified, hold'⟩
    obtain ⟨modified', hmodified', hfresh⟩ := hkept key h' hkey hholds
    rw [hwrote, hmodified] at hmodified'
    cases hmodified'
    change time < modified + staleAfter at hfresh
    omega
  have hwaits : h.phase.granted = false := by
    rw [hphase]
    rfl
  apply hx.moves hmoves hkept
  · apply hsingle.own hexclusive hwrote hclock
    · intro lock hlock
      exact hlocks ▸ hlock
    · left
      change key ∈ w.locks
      rw [hlocks]
      exact (hsingle.placed_or_late (by simp [hphase]) (by simp [hphase])).resolve_right htimely
    · exact fun _ => hholds
    · left
      rw [hacquired]
      exact (hsingle.acquiredAt.resolve_right htimely).trans hclock
  · exact fun hgone => absurd (hgone.late hold hwaits) htimely
  · intro l hl
    rw [hphase'] at hl
    cases hl
  · intro o g hne hg hconflict
    rcases hx.settled key o h g hne hold hg (hexclusive ▸ hconflict) with
      (hnever | hnever) | (hpending | hpending) | hover
    · exact absurd (hnever.late hphase) htimely
    · exact .inl (.inr (hnever.frame (hmoves.wrote o hne) hclock))
    · cases mem_of_pending hpending hphase
    · exact .inr (.inl (.inr hpending))
    · exact .inr (.inr hover)
  · exact fun a ha => hx.preceded a key ha
  · intro h₀ hold₀ hreleased
    rw [hold] at hold₀
    cases hold₀
    rw [hphase] at hreleased
    cases hreleased

theorem Sound.over (hx : x.Sound) (hold : x.world.holders[s.key]? = some h)
    (hmoves : x.Moves (x.after time s w) s.key h') (hkept : (x.after time s w).Kept)
    (hlocks : ∀ lock, w.locks[s.key]? = some lock → x.world.locks[s.key]? = some lock)
    (hphase : h'.phase = if h.phase.granted then .released else .failed)
    (hexclusive : h'.exclusive = h.exclusive) (hrefresher : h'.refresher = .stopped)
    (hacquired : h'.acquiredAt = h.acquiredAt) (hstamp : s.stamp = none)
    (hlists : s.lists = false) : (x.after time s w).Sound := by
  have hsingle := hx.single s.key h hold
  have hwrote : (x.after time s w).wrote[s.key]? = x.wrote[s.key]? := by
    simp only [after, hstamp, Option.isSome_none, Bool.false_eq_true, if_false]
  have hpreceded : (x.after time s w).preceded = x.preceded := by
    simp only [after, hlists, Bool.false_eq_true, if_false]
  apply hx.ends hold hmoves hkept hexclusive ?_ hphase hwrote hpreceded
  apply hsingle.own hexclusive hwrote hmoves.clock hlocks
  · cases hgranted : h.phase.granted with
    | true =>
        rw [hgranted] at hphase
        exact .inr (.inr (.inr hphase))
    | false =>
        rw [hgranted] at hphase
        exact .inr (.inr (.inl hphase))
  · rw [hrefresher]
    exact fun hne => absurd rfl hne
  · rw [hacquired]
    refine hsingle.acquiredAt.imp (fun hle => hle.trans hmoves.clock) fun hlate => ?_
    apply hlate.frame ?_ hwrote hmoves.clock
    rw [hphase, hlate.1]
    rfl

theorem Sound.rewrite (hx : x.Sound) {key : String} (hold : x.world.holders[key]? = some h)
    (hawake : h.refresher = .rewriting) (hclock : x.clock ≤ time)
    (hkept : (x.after time (.rewrite key (some time)) w).Kept)
    (hholders : w.holders = x.world.holders.insert key { h with refresher := .sleeping })
    (hlocks : w.locks = x.world.locks.insert key ⟨some h.exclusive, some time⟩)
    (hremoved : w.removed = x.world.removed) :
    (x.after time (.rewrite key (some time)) w).Sound := by
  have hsingle := hx.single key h hold
  have hholds : h.Holds := hsingle.refresher (by rw [hawake]; exact Refresher.noConfusion)
  have hwrote : (x.after time (.rewrite key (some time)) w).wrote[key]? = some time :=
    (StringMap.getElem?_insert ..).trans (if_pos rfl)
  refine hx.holding hold hholds (moves_after hclock hholders ?_ ?_) hkept rfl ?_ ?_ rfl
  · intro other g hne _
    left
    rw [hlocks, StringMap.getElem?_insert]
    exact if_neg hne
  · intro other hne hmem
    rw [hlocks, hremoved]
    exact hmem.imp_left fun hmem => Std.ExtTreeMap.mem_insert.mpr (.inr hmem)
  · constructor
    · exact ⟨time, hwrote, le_rfl⟩
    · intro lock hlock
      change w.locks[key]? = some lock at hlock
      rw [hlocks, StringMap.getElem?_insert, if_pos rfl] at hlock
      cases hlock
      rw [hwrote]
    · left
      change key ∈ w.locks
      simp [hlocks]
    · exact fun _ => hholds
    · exact .inl ((hsingle.acquired_of_holds hholds).trans hclock)
  · exact fun l hl => hx.removing key h l hold hl

theorem Sound.removeStale (hx : x.Sound) {key stale : String} {rest : List String}
    (hold : x.world.holders[key]? = some h) (hphase : h.phase = .removing (stale :: rest))
    (hclock : x.clock ≤ time) (hkept : (x.after time (.removeStale key) w).Kept)
    (hholders : w.holders = x.world.holders.insert key { h with phase := .removing rest })
    (hlocks : w.locks = x.world.locks.erase stale)
    (hremoved : w.removed = stale :: x.world.removed) :
    (x.after time (.removeStale key) w).Sound := by
  have hholds : h.Holds := by
    unfold Holder.Holds
    rw [hphase]
    exact ⟨rfl, LockPhase.noConfusion⟩
  have hgone : ∀ other ∈ stale :: rest, x.Gone other := hx.removing key h _ hold hphase
  have hstale : x.Gone stale := hgone stale (List.mem_cons_self ..)
  have hne : stale ≠ key := by
    rintro rfl
    exact hstale.not_holds hold hholds
  have hwrote : (x.after time (.removeStale key) w).wrote[key]? = x.wrote[key]? := rfl
  refine hx.holding hold hholds (moves_after hclock hholders ?_ ?_) hkept rfl ?_ ?_ rfl
  · intro other g _ hg
    rw [hlocks, StringMap.getElem?_erase]
    by_cases heq : stale = other
    · subst heq
      unfold Gone at hstale
      rw [hg] at hstale
      exact .inr ⟨if_pos rfl, hstale⟩
    · exact .inl (if_neg heq)
  · intro other _ hmem
    rw [hlocks, hremoved]
    by_cases heq : stale = other
    · exact .inr (heq ▸ List.mem_cons_self ..)
    · refine hmem.imp (fun hmem => ?_) (List.mem_cons_of_mem _)
      rw [Std.ExtTreeMap.mem_erase]
      exact ⟨fun h => heq (Std.compare_eq_iff_eq.mp h), hmem⟩
  · have hholds' : Holder.Holds { h with phase := .removing rest } := ⟨rfl, LockPhase.noConfusion⟩
    apply (hx.single key h hold).holding hholds hholds' rfl rfl hwrote hclock
    change w.locks[key]? = x.world.locks[key]?
    rw [hlocks, StringMap.getElem?_erase]
    exact if_neg hne
  · intro l hl other hother
    cases hl
    exact hgone other (List.mem_cons_of_mem _ hother)

theorem Sound.write (hx : x.Sound) {key : String} {exclusive : Bool}
    (hold : x.world.holders[key]? = none) (hunused : key ∉ x.world.locks)
    (hunremoved : key ∉ x.world.removed) (hclock : x.clock ≤ time)
    (hkept : (x.after time (.write key exclusive (some time)) w).Kept)
    (hholders : w.holders =
      x.world.holders.insert key ⟨exclusive, .written, 0, [], .stopped, false⟩)
    (hlocks : w.locks = x.world.locks.insert key ⟨some exclusive, some time⟩)
    (hremoved : w.removed = x.world.removed) :
    (x.after time (.write key exclusive (some time)) w).Sound := by
  have hwrote : (x.after time (.write key exclusive (some time)) w).wrote[key]? = some time :=
    (StringMap.getElem?_insert ..).trans (if_pos rfl)
  have hnot : ¬ x.Gone key := by
    unfold Gone
    rw [hold]
    exact not_or.mpr ⟨hunused, hunremoved⟩
  have hmoves : x.Moves (x.after time (.write key exclusive (some time)) w) key
      ⟨exclusive, .written, 0, [], .stopped, false⟩ := by
    apply moves_after hclock hholders
    · intro other g hne _
      left
      rw [hlocks, StringMap.getElem?_insert]
      exact if_neg hne
    · intro other hne hmem
      rw [hlocks, hremoved]
      exact hmem.imp_left fun hmem => Std.ExtTreeMap.mem_insert.mpr (.inr hmem)
  apply hx.moves hmoves hkept
  · constructor
    · exact ⟨time, hwrote, le_rfl⟩
    · intro lock hlock
      change w.locks[key]? = some lock at hlock
      rw [hlocks, StringMap.getElem?_insert, if_pos rfl] at hlock
      cases hlock
      rw [hwrote]
    · left
      change key ∈ w.locks
      simp [hlocks]
    · exact fun hne => absurd rfl hne
    · exact .inl (Nat.zero_le _)
  · exact fun hgone => absurd hgone hnot
  · intro l hl
    cases hl
  · exact fun other g _ _ _ => .inr (.inl (.inl (.inl rfl)))
  · exact fun a ha => hx.preceded a key ha
  · intro h hh
    rw [hold] at hh
    cases hh

theorem erased_lock {locks : StringMap LockObject} {key : String} (lock : LockObject)
    (hlock : (locks.erase key)[key]? = some lock) : locks[key]? = some lock := by
  rw [StringMap.getElem?_erase, if_pos rfl] at hlock
  cases hlock

theorem judged {locks : StringMap LockObject} {exclusive reads : Bool} {other : String}
    {rest : List String} {phase : LockPhase}
    (hphase : phase = if exclusive ||
      (if reads then locks[other]?.bind LockObject.exclusive else none).getD true then .yielding
      else .judging rest) :
    phase = .yielding ∨ phase = .judging rest ∧ exclusive = false ∧
      ∃ lock, locks[other]? = some lock ∧ lock.exclusive = some false := by
  cases exclusive with
  | true => exact .inl hphase
  | false =>
      cases hread : (if reads then locks[other]?.bind LockObject.exclusive else none) with
      | none =>
          rw [hread] at hphase
          exact .inl hphase
      | some kind =>
          rw [hread] at hphase
          cases kind with
          | true => exact .inl hphase
          | false =>
              split_ifs at hread with hreads
              obtain ⟨lock, hlock, hkind⟩ := Option.bind_eq_some_iff.mp hread
              exact .inr ⟨hphase, rfl, lock, hlock, hkind⟩

theorem Sound.wake (hx : x.Sound) {key : String} (hold : x.world.holders[key]? = some h)
    (hclock : x.clock ≤ time) (hkept : (x.after time (.wake key) w).Kept)
    (hw : x.world.advance key h (.wake key) = some w) : (x.after time (.wake key) w).Sound := by
  simp only [LockWorld.advance] at hw
  split_ifs at hw with hsleeping hthere
  all_goals
    cases hw
    have hholds : h.Holds :=
      (hx.single key h hold).refresher (by rw [hsleeping]; exact Refresher.noConfusion)
    exact hx.keeps hold hclock hkept rfl rfl rfl hholds hholds rfl rfl rfl rfl
      fun l => hx.removing key h l hold

theorem Sound.rewriteFails (hx : x.Sound) {key : String} (hold : x.world.holders[key]? = some h)
    (hclock : x.clock ≤ time) (hkept : (x.after time (.rewriteFails key) w).Kept)
    (hw : x.world.advance key h (.rewriteFails key) = some w) :
    (x.after time (.rewriteFails key) w).Sound := by
  simp only [LockWorld.advance] at hw
  split_ifs at hw with hrewriting
  cases hw
  have hholds : h.Holds :=
    (hx.single key h hold).refresher (by rw [hrewriting]; exact Refresher.noConfusion)
  exact hx.keeps hold hclock hkept rfl rfl rfl hholds hholds rfl rfl rfl rfl
    fun l => hx.removing key h l hold

theorem Sound.listStale (hx : x.Sound) {key : String} (hold : x.world.holders[key]? = some h)
    (hclock : x.clock ≤ time) (hkept : (x.after time (.listStale key) w).Kept)
    (hw : x.world.advance key h (.listStale key) = some w) :
    (x.after time (.listStale key) w).Sound := by
  simp only [LockWorld.advance] at hw
  split_ifs at hw with hphase
  cases hw
  have hholds : h.Holds := holds_of_held hphase.1
  refine hx.keeps hold hclock hkept rfl rfl rfl hholds ?_ rfl rfl rfl rfl ?_
  · exact ⟨rfl, LockPhase.noConfusion⟩
  · intro l hl other hother
    cases hl
    obtain ⟨-, lock, hlock, hstale⟩ := mem_others.mp hother
    exact hx.gone_of_stale ((hx.single key h hold).acquired_of_holds hholds) hlock hstale

theorem Sound.ensureHeld (hx : x.Sound) {key : String} (hold : x.world.holders[key]? = some h)
    (hclock : x.clock ≤ time) (hkept : (x.after time (.ensureHeld key) w).Kept)
    (hw : x.world.advance key h (.ensureHeld key) = some w) :
    (x.after time (.ensureHeld key) w).Sound := by
  simp only [LockWorld.advance] at hw
  split_ifs at hw with hphase hflag
  all_goals
    cases hw
    have hholds : h.Holds := holds_of_held hphase.1
    refine hx.keeps hold hclock hkept rfl rfl rfl hholds ?_ rfl rfl rfl rfl ?_
    · exact ⟨rfl, LockPhase.noConfusion⟩
    · intro l hl
      cases hl

theorem Sound.saveSnapshot (hx : x.Sound) {key : String} (hold : x.world.holders[key]? = some h)
    (hclock : x.clock ≤ time) (hkept : (x.after time (.saveSnapshot key) w).Kept)
    (hw : x.world.advance key h (.saveSnapshot key) = some w) :
    (x.after time (.saveSnapshot key) w).Sound := by
  simp only [LockWorld.advance] at hw
  split_ifs at hw with hphase
  cases hw
  have hholds : h.Holds := by
    unfold Holder.Holds
    rw [hphase]
    exact ⟨rfl, LockPhase.noConfusion⟩
  refine hx.keeps hold hclock hkept rfl rfl rfl hholds ?_ rfl rfl rfl rfl ?_
  · exact ⟨rfl, LockPhase.noConfusion⟩
  · intro l hl
    cases hl

theorem Sound.yield (hx : x.Sound) {key : String} (hold : x.world.holders[key]? = some h)
    (hclock : x.clock ≤ time) (hkept : (x.after time (.yield key) w).Kept)
    (hw : x.world.advance key h (.yield key) = some w) : (x.after time (.yield key) w).Sound := by
  simp only [LockWorld.advance] at hw
  split_ifs at hw with hphase
  cases hw
  have hwaits : h.phase.granted = false := by
    rw [hphase]
    rfl
  exact hx.over hold (moves_erase hclock rfl rfl rfl) hkept erased_lock (by rw [hwaits]; rfl) rfl
    ((hx.single key h hold).asleep hwaits) rfl rfl rfl

theorem Sound.step (hx : x.Sound) (hguard : Refreshed x (time, s))
    (hstep : x.step (time, s) = some y) : y.Sound := by
  have hkept : y.Kept := hguard y hstep
  unfold LockTimes.step at hstep
  split_ifs at hstep with htime
  obtain ⟨hclock, hstamp⟩ := htime
  obtain ⟨w, hw, rfl⟩ := Option.map_eq_some_iff.mp hstep
  simp only at hclock hstamp hw hkept
  unfold LockWorld.step at hw
  cases hold : x.world.holders[s.key]? with
  | none =>
      rw [hold] at hw
      cases s with
      | write key exclusive modified =>
          cases hstamp
          simp only at hw
          split_ifs at hw with hused
          cases hw
          rw [not_or] at hused
          exact hx.write hold hused.1 hused.2 hclock hkept rfl rfl rfl
      | _ => cases hw
  | some h =>
      rw [hold] at hw
      have hsingle := hx.single s.key h hold
      cases s with
      | write key exclusive modified => cases hw
      | list key now =>
          simp only [LockWorld.advance] at hw
          split_ifs at hw with hphase
          cases hw
          exact hx.list hold hphase hclock hkept rfl rfl rfl rfl rfl rfl (hsingle.own_time hphase now)
      | judge key reads =>
          simp only [LockWorld.advance] at hw
          split at hw
          · rename_i other rest hphase
            cases hw
            refine hx.judge hold hphase hclock hkept rfl rfl rfl ?_ rfl rfl rfl
            exact judged rfl
          · cases hw
      | yield key => exact hx.yield hold hclock hkept hw
      | grant key =>
          simp only [LockWorld.advance] at hw
          split_ifs at hw with hphase
          cases hw
          exact hx.grant hold hphase hclock hkept rfl rfl rfl rfl rfl rfl
      | wake key => exact hx.wake hold hclock hkept hw
      | rewrite key modified =>
          cases hstamp
          simp only [LockWorld.advance] at hw
          split_ifs at hw with hrewriting
          cases hw
          exact hx.rewrite hold hrewriting hclock hkept rfl rfl rfl
      | rewriteFails key => exact hx.rewriteFails hold hclock hkept hw
      | listStale key => exact hx.listStale hold hclock hkept hw
      | removeStale key =>
          simp only [LockWorld.advance] at hw
          split at hw
          · rename_i stale rest hphase
            cases hw
            exact hx.removeStale hold hphase hclock hkept rfl rfl rfl
          · cases hw
      | ensureHeld key => exact hx.ensureHeld hold hclock hkept hw
      | saveSnapshot key => exact hx.saveSnapshot hold hclock hkept hw
      | release key =>
          simp only [LockWorld.advance] at hw
          split_ifs at hw with hphase
          cases hw
          exact hx.over hold (moves_erase hclock rfl rfl rfl) hkept erased_lock
            (by rw [hphase.1]; rfl) rfl rfl rfl rfl rfl
      | stop key =>
          cases hw
          exact hx.over hold (moves_same hclock rfl rfl rfl) hkept (fun _ => id) rfl rfl rfl rfl rfl
            rfl

end Steps

/-- No run has come yet; the bucket may hold the locks of others, of any age. -/
def Idle (x : LockTimes) : Prop := x.world.holders = ∅ ∧ x.preceded = ∅

theorem Idle.sound {x : LockTimes} (hidle : x.Idle) : x.Sound := by
  have hnone : ∀ key : String, x.world.holders[key]? = none := by
    intro key
    rw [hidle.1]
    rfl
  constructor
  · intro key h hold
    rw [hnone] at hold
    cases hold
  · intro key h hold
    rw [hnone] at hold
    cases hold
  · intro key h l hold
    rw [hnone] at hold
    cases hold
  · intro a b h g _ hold
    rw [hnone] at hold
    cases hold
  · rintro a b ⟨l, hl, -⟩
    rw [hidle.2] at hl
    cases hl

/-- However the acquires and releases are interleaved: where every held lock is written again in
time, of two locks that were granted, one of them exclusive, one had been released when the run of
the other listed the locks, so that the two were never held at once. -/
theorem granted_locks_precede {start x : LockTimes} {steps : List (ℕ × LockStep)} {a b : String}
    {h g : Holder} (hidle : start.Idle) (hrun : Runs step Refreshed start steps x) (hne : a ≠ b)
    (ha : x.world.holders[a]? = some h) (hb : x.world.holders[b]? = some g)
    (hexclusive : h.exclusive = true ∨ g.exclusive = true) (hgranted : h.phase.granted = true)
    (hgranted' : g.phase.granted = true) :
    (x.Precedes a b ∨ x.Precedes b a) ∧ ¬ (h.Holds ∧ g.Holds) := by
  have hx := hrun.invariant hidle.sound fun x s y hx hguard hstep => hx.step hguard hstep
  have hprecedes : x.Precedes a b ∨ x.Precedes b a := by
    rcases hx.settled a b h g hne ha hb hexclusive with
      (hnever | hnever) | (hpending | hpending) | hprecedes
    · rw [hnever.not_granted] at hgranted
      cases hgranted
    · rw [hnever.not_granted] at hgranted'
      cases hgranted'
    · rw [pending_not_granted hpending] at hgranted
      cases hgranted
    · rw [pending_not_granted hpending] at hgranted'
      cases hgranted'
    · exact hprecedes
  refine ⟨hprecedes, fun ⟨hholds, hholds'⟩ => ?_⟩
  rcases hprecedes with hover | hover
  · obtain ⟨h', hh', hreleased⟩ := hx.preceded a b hover
    rw [ha] at hh'
    cases hh'
    exact hholds.2 hreleased
  · obtain ⟨g', hg', hreleased⟩ := hx.preceded b a hover
    rw [hb] at hg'
    cases hg'
    exact hholds'.2 hreleased

def keeps (x : LockTimes) : Bool :=
  x.world.holders.toList.all fun entry =>
    !(entry.2.phase.granted && entry.2.phase != .released) ||
      (x.wrote[entry.1]?).any fun modified => decide (x.clock < modified + staleAfter)

theorem refreshed_of_keeps {x : LockTimes} {s : ℕ × LockStep}
    (hkeeps : (x.step s).all keeps = true) : Refreshed x s := by
  intro y hy key h hold hholds
  rw [hy, Option.all_some] at hkeeps
  have hmem := Std.ExtTreeMap.mem_toList_iff_getElem?_eq_some.mpr hold
  have hentry := List.all_eq_true.mp hkeeps (key, h) hmem
  have hphase : (h.phase != .released) = true := bne_iff_ne.mpr hholds.2
  simp only [hholds.1, hphase, Bool.and_self, Bool.not_true, Bool.false_or, Option.any_eq_true,
    decide_eq_true_eq] at hentry
  exact hentry

def unlocked : LockTimes := ⟨idleLocks, 0, ∅, ∅⟩

/-- Two runs want an exclusive lock at the same time; the first has listed the locks. -/
def overlapping : List (ℕ × LockStep) :=
  [(0, .write "a" true (some 0)), (0, .list "a" 0), (1, .write "b" true (some 1))]

/-- The first gets its lock and releases it before the second lists the locks. -/
def oneByOne : List (ℕ × LockStep) :=
  [(1, .grant "a"), (2, .release "a"), (2, .list "b" 2), (2, .grant "b")]

theorem oneByOne_runs : (execute (checked (fun x s => (x.step s).all keeps) step) unlocked
    (overlapping ++ oneByOne)).isSome := by decide +kernel

def bothGranted : LockTimes :=
  (execute (checked (fun x s => (x.step s).all keeps) step) unlocked
    (overlapping ++ oneByOne)).get oneByOne_runs

theorem bothGranted_run : Runs step Refreshed unlocked (overlapping ++ oneByOne) bothGranted :=
  checked_runs (fun _ _ => refreshed_of_keeps) (Option.some_get _).symm

theorem granted_locks_precede_bothGranted :
    (bothGranted.Precedes "a" "b" ∨ bothGranted.Precedes "b" "a") ∧
      ¬ ((⟨true, .released, 0, [], .stopped, false⟩ : Holder).Holds ∧
        (⟨true, .held, 1, [], .sleeping, false⟩ : Holder).Holds) :=
  granted_locks_precede ⟨rfl, rfl⟩ bothGranted_run (by decide) (by decide +kernel)
    (by decide +kernel) (.inl rfl) rfl rfl

/-- Both acquires were under way at once, and both succeeded. -/
theorem overlapping_acquires_succeed :
    (execute step unlocked overlapping).map (fun x => x.world.holders.toList.map fun entry =>
      (entry.1, entry.2.exclusive, entry.2.phase.granted)) =
        some [("a", true, false), ("b", true, false)] ∧
    Runs step Refreshed unlocked (overlapping ++ oneByOne) bothGranted ∧
    (bothGranted.world.holders.toList.map fun entry =>
      (entry.1, entry.2.exclusive, entry.2.phase.granted)) =
        [("a", true, true), ("b", true, true)] := by
  refine ⟨by decide +kernel, bothGranted_run, by decide +kernel⟩

end LockTimes

end FileMirror
