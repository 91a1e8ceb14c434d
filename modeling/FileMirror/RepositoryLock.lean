import FileMirror.Manifest
import FileMirror.Transitions

set_option autoImplicit false

namespace FileMirror

open Transitions

/-- `STALE_AFTER` in nanoseconds. -/
def staleAfter : ℕ := 30 * 60 * 1000000000

structure LockObject where
  exclusive : Option Bool
  lastModified : Option ℕ
  deriving DecidableEq

def isFresh (modified : Option ℕ) (now : ℕ) : Bool :=
  match modified with
  | none => true
  | some modified => decide (now < modified) || decide (now - modified < staleAfter)

/-- Where a run stands: in `acquire`, holding its lock, or at its end. -/
inductive LockPhase where
  | written
  | judging (others : List String)
  | yielding
  | failed
  | held
  | removing (stale : List String)
  | checked
  | refused
  | published
  | released
  deriving DecidableEq

/-- `acquire` has returned the lock. -/
def LockPhase.granted : LockPhase → Bool
  | .written | .judging _ | .yielding | .failed => false
  | _ => true

/-- The refresher sleeps, or its head found the lock and it is about to put it again. -/
inductive Refresher where
  | stopped
  | sleeping
  | rewriting
  deriving DecidableEq

structure Holder where
  exclusive : Bool
  phase : LockPhase
  acquiredAt : ℕ
  passedOver : List String
  refresher : Refresher
  lost : Bool
  deriving DecidableEq

/-- `removed` is what the runs of `remove_stale` have deleted so far. -/
structure LockWorld where
  locks : StringMap LockObject
  holders : StringMap Holder
  removed : List String
  snapshots : List String

inductive LockStep where
  | write (key : String) (exclusive : Bool) (modified : Option ℕ)
  | list (key : String) (now : ℕ)
  | judge (key : String) (reads : Bool)
  | yield (key : String)
  | grant (key : String)
  | wake (key : String)
  | rewrite (key : String) (modified : Option ℕ)
  | rewriteFails (key : String)
  | listStale (key : String)
  | removeStale (key : String)
  | ensureHeld (key : String)
  | saveSnapshot (key : String)
  | release (key : String)
  | stop (key : String)

namespace LockWorld

def put (w : LockWorld) (key : String) (h : Holder) : LockWorld :=
  { w with holders := w.holders.insert key h }

/-- The locks of the others, those written within `STALE_AFTER` of `now` or the rest. -/
def others (w : LockWorld) (key : String) (now : ℕ) (fresh : Bool) : List String :=
  (w.locks.toList.filter fun lock =>
    lock.1 ≠ key && isFresh lock.2.lastModified now == fresh).map Prod.fst

/-- One step of the run whose lock is `key`; a new lock has a random id, which nothing had. -/
def advance (w : LockWorld) (key : String) (h : Holder) : LockStep → Option LockWorld
  | .write _ _ _ => none
  | .list _ now =>
      if h.phase = .written then
        let acquiredAt := (w.locks[key]?.bind LockObject.lastModified).getD now
        some (w.put key { h with
          phase := .judging (w.others key acquiredAt true)
          acquiredAt
          passedOver := w.others key acquiredAt false })
      else none
  | .judge _ reads =>
      match h.phase with
      | .judging (other :: rest) =>
          let read := if reads then w.locks[other]?.bind LockObject.exclusive else none
          let phase := if h.exclusive || read.getD true then .yielding else .judging rest
          some (w.put key { h with phase })
      | _ => none
  | .yield _ =>
      if h.phase = .yielding then
        some { w.put key { h with phase := .failed } with locks := w.locks.erase key }
      else none
  | .grant _ =>
      if h.phase = .judging [] then
        some (w.put key { h with phase := .held, refresher := .sleeping })
      else none
  | .wake _ =>
      if h.refresher = .sleeping then
        if w.locks.contains key then some (w.put key { h with refresher := .rewriting })
        else some (w.put key { h with refresher := .stopped, lost := true })
      else none
  | .rewrite _ modified =>
      if h.refresher = .rewriting then
        some { w.put key { h with refresher := .sleeping } with
          locks := w.locks.insert key ⟨some h.exclusive, modified⟩ }
      else none
  | .rewriteFails _ =>
      if h.refresher = .rewriting then some (w.put key { h with refresher := .sleeping }) else none
  | .listStale _ =>
      if h.phase = .held ∧ h.exclusive then
        some (w.put key { h with phase := .removing (w.others key h.acquiredAt false) })
      else none
  | .removeStale _ =>
      match h.phase with
      | .removing (stale :: rest) =>
          some { w.put key { h with phase := .removing rest } with
            locks := w.locks.erase stale
            removed := stale :: w.removed }
      | _ => none
  | .ensureHeld _ =>
      if h.phase = .held ∧ h.exclusive = false then
        some (w.put key { h with phase := if h.lost then .refused else .checked })
      else none
  | .saveSnapshot _ =>
      if h.phase = .checked then
        some { w.put key { h with phase := .published } with snapshots := key :: w.snapshots }
      else none
  | .release _ =>
      if h.phase.granted ∧ h.phase ≠ .released then
        some { w.put key { h with phase := .released, refresher := .stopped } with
          locks := w.locks.erase key }
      else none
  | .stop _ =>
      let phase := if h.phase.granted then LockPhase.released else .failed
      some (w.put key { h with phase, refresher := .stopped })

end LockWorld

def LockStep.key : LockStep → String
  | .write key _ _ | .list key _ | .judge key _ | .yield key | .grant key | .wake key
  | .rewrite key _ | .rewriteFails key | .listStale key | .removeStale key | .ensureHeld key
  | .saveSnapshot key | .release key | .stop key => key

def LockWorld.step (w : LockWorld) (s : LockStep) : Option LockWorld :=
  match w.holders[s.key]?, s with
  | none, .write key exclusive modified =>
      if w.locks.contains key ∨ key ∈ w.removed then none
      else some { w.put key ⟨exclusive, .written, 0, [], .stopped, false⟩ with
        locks := w.locks.insert key ⟨some exclusive, modified⟩ }
  | none, _ => none
  | some h, s => w.advance s.key h s

/-- An exclusive lock was granted, in spite of the lock `key`, which was judged stale. -/
def Holder.Over (h : Holder) (key : String) : Prop :=
  h.phase.granted = true ∧ h.exclusive = true ∧ key ∈ h.passedOver

def LockWorld.PassedOver (w : LockWorld) (key : String) : Prop :=
  ∃ (prune : String) (h : Holder), w.holders[prune]? = some h ∧ h.Over key

/-- The lock was deleted by `remove_stale`, or a prune holds or held its own in spite of it. -/
def LockWorld.Lost (w : LockWorld) (key : String) : Prop := key ∈ w.removed ∨ w.PassedOver key

/-- A run of locks with its history: `woken` are the locks whose refresher has woken up since
`remove_stale` deleted them. -/
structure LockHistory where
  world : LockWorld
  woken : List String

def LockHistory.step (x : LockHistory) (s : LockStep) : Option LockHistory :=
  (x.world.step s).map fun w =>
    { world := w
      woken := match s with
        | .wake key => if key ∈ x.world.removed then key :: x.woken else x.woken
        | _ => x.woken }

/-- No lock is deleted between its refresher's head and put, none is deleted or passed over between
its run's check and its snapshot, and a run whose lock was lost comes to the check only after its
lock was deleted and its refresher has woken up since. -/
def Noticed (x : LockHistory) : LockStep → Prop
  | .removeStale prune => ∀ p stale rest, x.world.holders[prune]? = some p →
      p.phase = .removing (stale :: rest) → ∀ h, x.world.holders[stale]? = some h →
        h.refresher ≠ .rewriting ∧ h.phase ≠ .checked
  | .grant prune => ∀ p, x.world.holders[prune]? = some p → p.exclusive = true →
      ∀ key ∈ p.passedOver, ∀ h, x.world.holders[key]? = some h → h.phase ≠ .checked
  | .ensureHeld key => x.world.Lost key → key ∈ x.woken
  | _ => True

structure LockWorld.Guarded (w : LockWorld) : Prop where
  checked : ∀ (key : String) (h : Holder), w.holders[key]? = some h → h.phase = .checked →
    ¬ w.Lost key
  gone : ∀ key ∈ w.removed, key ∉ w.locks ∧ ∀ h, w.holders[key]? = some h →
    h.refresher ≠ .rewriting

structure LockHistory.Guarded (x : LockHistory) : Prop where
  world : x.world.Guarded
  flagged : ∀ key ∈ x.woken, ∃ h, x.world.holders[key]? = some h ∧ h.lost = true

section Frames

variable {w t : LockWorld} {key : String} {h h' : Holder}

theorem LockWorld.PassedOver.of_put {other : String} (hpassed : t.PassedOver other)
    (hholders : t.holders = w.holders.insert key h')
    (hover : h'.Over other → ∃ h, w.holders[key]? = some h ∧ h.Over other) :
    w.PassedOver other := by
  obtain ⟨prune, p, hprune, hp⟩ := hpassed
  rw [hholders, StringMap.getElem?_insert] at hprune
  split_ifs at hprune with hkey
  · cases hprune
    exact ⟨key, hover hp⟩
  · exact ⟨prune, p, hprune, hp⟩

theorem LockWorld.Lost.of_put {other : String} (hlost : t.Lost other)
    (hholders : t.holders = w.holders.insert key h') (hremoved : t.removed = w.removed)
    (hover : h'.Over other → ∃ h, w.holders[key]? = some h ∧ h.Over other) : w.Lost other := by
  rcases hlost with hgone | hpassed
  · exact .inl (hremoved ▸ hgone)
  · exact .inr (hpassed.of_put hholders hover)

theorem LockWorld.Guarded.advance (hw : w.Guarded) (hholders : t.holders = w.holders.insert key h')
    (hlost : ∀ other, t.Lost other →
      w.Lost other ∨ ∀ g, w.holders[other]? = some g → g.phase ≠ .checked)
    (hown : h'.phase = .checked → ¬ t.Lost key)
    (hgone : ∀ other ∈ t.removed, other ∉ t.locks ∧
      (other = key → h'.refresher ≠ .rewriting) ∧
      ∀ g, w.holders[other]? = some g → g.refresher ≠ .rewriting) : t.Guarded where
  checked other g hg hphase := by
    rw [hholders, StringMap.getElem?_insert] at hg
    split_ifs at hg with hkey
    · cases hg
      exact hkey ▸ hown hphase
    · intro hnow
      rcases hlost other hnow with hbefore | hnot
      · exact hw.checked other g hg hphase hbefore
      · exact hnot g hg hphase
  gone other hremoved := by
    obtain ⟨habsent, hself, hothers⟩ := hgone other hremoved
    refine ⟨habsent, fun g hg => ?_⟩
    rw [hholders, StringMap.getElem?_insert] at hg
    split_ifs at hg with hkey
    · cases hg
      exact hself hkey.symm
    · exact hothers g hg

theorem LockWorld.Guarded.quiet (hw : w.Guarded) (hold : w.holders[key]? = some h)
    (hholders : t.holders = w.holders.insert key h') (hremoved : t.removed = w.removed)
    (hover : ∀ other, h'.Over other → h.Over other)
    (hchecked : h'.phase = .checked → h.phase = .checked)
    (hrewriting : h'.refresher = .rewriting → h.refresher = .rewriting ∨ key ∈ w.locks)
    (hlocks : ∀ other ∈ w.removed, other ∉ w.locks → other ∉ t.locks) : t.Guarded := by
  have hlost : ∀ other, t.Lost other → w.Lost other := fun other hnow =>
    hnow.of_put hholders hremoved fun h => ⟨_, hold, hover other h⟩
  apply hw.advance hholders fun other hnow => .inl (hlost other hnow)
  · exact fun hphase hnow => hw.checked key h hold (hchecked hphase) (hlost key hnow)
  · intro other hgone
    rw [hremoved] at hgone
    obtain ⟨habsent, hstill⟩ := hw.gone other hgone
    refine ⟨hlocks other hgone habsent, ?_, hstill⟩
    rintro rfl hagain
    rcases hrewriting hagain with hagain | hthere
    · exact hstill h hold hagain
    · exact habsent hthere

theorem not_mem_erase {locks : StringMap LockObject} {other : String} (habsent : other ∉ locks) :
    other ∉ locks.erase key := by
  rw [Std.ExtTreeMap.mem_erase, not_and]
  exact fun _ => habsent

theorem not_mem_insert {locks : StringMap LockObject} {other : String} {lock : LockObject}
    (hne : key ≠ other) (habsent : other ∉ locks) : other ∉ locks.insert key lock := by
  rw [Std.ExtTreeMap.mem_insert, not_or]
  exact ⟨fun heq => hne (Std.compare_eq_iff_eq.mp heq), habsent⟩

end Frames

section Steps

variable {w t : LockWorld} {key : String} {h : Holder} {now : ℕ} {modified : Option ℕ}
  {reads exclusive : Bool}

theorem LockWorld.Guarded.write (hw : w.Guarded) (hfresh : ¬ (w.locks.contains key ∨ key ∈ w.removed)) :
    LockWorld.Guarded { w.put key ⟨exclusive, .written, 0, [], .stopped, false⟩ with
      locks := w.locks.insert key ⟨some exclusive, modified⟩ } := by
  rw [not_or] at hfresh
  refine hw.advance rfl (fun other hnow => .inl (hnow.of_put rfl rfl fun hover => by cases hover.1))
    LockPhase.noConfusion ?_
  intro other hgone
  obtain ⟨habsent, hstill⟩ := hw.gone other hgone
  have hne : key ≠ other := by
    rintro rfl
    exact hfresh.2 hgone
  exact ⟨not_mem_insert hne habsent, fun _ => Refresher.noConfusion, hstill⟩

theorem LockWorld.Guarded.list (hw : w.Guarded) (hold : w.holders[key]? = some h)
    (hstep : w.advance key h (.list key now) = some t) : t.Guarded := by
  simp only [LockWorld.advance] at hstep
  split_ifs at hstep with hphase
  cases hstep
  refine hw.quiet hold rfl rfl ?_ LockPhase.noConfusion .inl fun _ _ h => h
  rintro other ⟨hgranted, -⟩
  cases hgranted

theorem LockWorld.Guarded.judge (hw : w.Guarded) (hold : w.holders[key]? = some h)
    (hstep : w.advance key h (.judge key reads) = some t) : t.Guarded := by
  simp only [LockWorld.advance] at hstep
  split at hstep
  · cases hstep
    refine hw.quiet hold rfl rfl ?_ ?_ .inl fun _ _ h => h
    · rintro other ⟨hgranted, -⟩
      simp only at hgranted
      split_ifs at hgranted <;> cases hgranted
    · intro hchecked
      simp only at hchecked
      split_ifs at hchecked
  · cases hstep

theorem LockWorld.Guarded.yield (hw : w.Guarded) (hold : w.holders[key]? = some h)
    (hstep : w.advance key h (.yield key) = some t) : t.Guarded := by
  simp only [LockWorld.advance] at hstep
  split_ifs at hstep with hphase
  cases hstep
  refine hw.quiet hold rfl rfl ?_ LockPhase.noConfusion .inl fun _ _ => not_mem_erase
  rintro other ⟨hgranted, -⟩
  cases hgranted

theorem LockWorld.Guarded.grant (hw : w.Guarded)
    (hfree : h.exclusive = true → ∀ other ∈ h.passedOver, ∀ g, w.holders[other]? = some g →
      g.phase ≠ .checked) (hstep : w.advance key h (.grant key) = some t) : t.Guarded := by
  simp only [LockWorld.advance] at hstep
  split_ifs at hstep with hphase
  cases hstep
  refine hw.advance rfl ?_ LockPhase.noConfusion ?_
  · rintro other (hgone | ⟨prune, p, hprune, hover⟩)
    · exact .inl (.inl hgone)
    · simp only [LockWorld.put, StringMap.getElem?_insert] at hprune
      split_ifs at hprune with hkey
      · cases hprune
        exact .inr (hfree hover.2.1 other hover.2.2)
      · exact .inl (.inr ⟨prune, p, hprune, hover⟩)
  · intro other hgone
    obtain ⟨habsent, hstill⟩ := hw.gone other hgone
    exact ⟨habsent, fun _ => Refresher.noConfusion, hstill⟩

theorem LockWorld.Guarded.wake (hw : w.Guarded) (hold : w.holders[key]? = some h)
    (hstep : w.advance key h (.wake key) = some t) : t.Guarded := by
  simp only [LockWorld.advance] at hstep
  split_ifs at hstep with hsleeping hthere
  · cases hstep
    exact hw.quiet hold rfl rfl (fun _ hover => hover) (fun hphase => hphase)
      (fun _ => .inr (Std.ExtTreeMap.contains_iff_mem.mp hthere)) fun _ _ h => h
  · cases hstep
    exact hw.quiet hold rfl rfl (fun _ hover => hover) (fun hphase => hphase)
      Refresher.noConfusion fun _ _ h => h

theorem LockWorld.Guarded.rewrite (hw : w.Guarded) (hold : w.holders[key]? = some h)
    (hstep : w.advance key h (.rewrite key modified) = some t) : t.Guarded := by
  simp only [LockWorld.advance] at hstep
  split_ifs at hstep with hrewriting
  cases hstep
  refine hw.quiet hold rfl rfl (fun _ hover => hover) (fun hphase => hphase)
    Refresher.noConfusion ?_
  intro other hgone habsent
  apply not_mem_insert ?_ habsent
  rintro rfl
  exact (hw.gone key hgone).2 h hold hrewriting

theorem LockWorld.Guarded.rewriteFails (hw : w.Guarded) (hold : w.holders[key]? = some h)
    (hstep : w.advance key h (.rewriteFails key) = some t) : t.Guarded := by
  simp only [LockWorld.advance] at hstep
  split_ifs at hstep with hrewriting
  cases hstep
  exact hw.quiet hold rfl rfl (fun _ hover => hover) (fun hphase => hphase)
    Refresher.noConfusion fun _ _ h => h

theorem LockWorld.Guarded.listStale (hw : w.Guarded) (hold : w.holders[key]? = some h)
    (hstep : w.advance key h (.listStale key) = some t) : t.Guarded := by
  simp only [LockWorld.advance] at hstep
  split_ifs at hstep with hphase
  cases hstep
  refine hw.quiet hold rfl rfl ?_ LockPhase.noConfusion .inl fun _ _ h => h
  intro other hover
  exact ⟨by rw [hphase.1]; rfl, hover.2⟩

theorem LockWorld.Guarded.removeStale (hw : w.Guarded) (hold : w.holders[key]? = some h)
    (hwindow : ∀ stale rest, h.phase = .removing (stale :: rest) → ∀ g,
      w.holders[stale]? = some g → g.refresher ≠ .rewriting ∧ g.phase ≠ .checked)
    (hstep : w.advance key h (.removeStale key) = some t) : t.Guarded := by
  simp only [LockWorld.advance] at hstep
  split at hstep
  · rename_i stale rest hphase
    cases hstep
    have hquiet := hwindow stale rest hphase
    refine hw.advance rfl ?_ LockPhase.noConfusion ?_
    · rintro other (hgone | hpassed)
      · rcases List.mem_cons.mp hgone with rfl | hgone
        · exact .inr fun g hg => (hquiet g hg).2
        · exact .inl (.inl hgone)
      · refine .inl (.inr (hpassed.of_put rfl fun hover => ⟨h, hold, ?_, hover.2⟩))
        rw [hphase]
        rfl
    · intro other hgone
      rcases List.mem_cons.mp hgone with rfl | hgone
      · refine ⟨by simp, ?_, fun g hg => (hquiet g hg).1⟩
        rintro rfl
        exact (hquiet h hold).1
      · obtain ⟨habsent, hstill⟩ := hw.gone other hgone
        refine ⟨not_mem_erase habsent, ?_, hstill⟩
        rintro rfl
        exact hstill h hold
  · cases hstep

theorem LockWorld.Guarded.ensureHeld (hw : w.Guarded) (hold : w.holders[key]? = some h)
    (hflag : w.Lost key → h.lost = true)
    (hstep : w.advance key h (.ensureHeld key) = some t) : t.Guarded := by
  simp only [LockWorld.advance] at hstep
  split_ifs at hstep with hphase hlost
  · cases hstep
    refine hw.quiet hold rfl rfl ?_ LockPhase.noConfusion .inl fun _ _ h => h
    intro other hover
    exact ⟨by rw [hphase.1]; rfl, hover.2⟩
  · cases hstep
    have hbefore : ∀ other, LockWorld.Lost (w.put key { h with phase := .checked }) other →
        w.Lost other := fun other hnow => hnow.of_put rfl rfl fun hover =>
      ⟨h, hold, by rw [hphase.1]; rfl, hover.2⟩
    refine hw.advance rfl (fun other hnow => .inl (hbefore other hnow)) ?_ ?_
    · exact fun _ hnow => hlost (hflag (hbefore key hnow))
    · intro other hgone
      obtain ⟨habsent, hstill⟩ := hw.gone other hgone
      refine ⟨habsent, ?_, hstill⟩
      rintro rfl
      exact hstill h hold

theorem LockWorld.Guarded.saveSnapshot (hw : w.Guarded) (hold : w.holders[key]? = some h)
    (hstep : w.advance key h (.saveSnapshot key) = some t) : t.Guarded := by
  simp only [LockWorld.advance] at hstep
  split_ifs at hstep with hphase
  cases hstep
  refine hw.quiet hold rfl rfl ?_ LockPhase.noConfusion .inl fun _ _ h => h
  intro other hover
  exact ⟨by rw [hphase]; rfl, hover.2⟩

theorem LockWorld.Guarded.release (hw : w.Guarded) (hold : w.holders[key]? = some h)
    (hstep : w.advance key h (.release key) = some t) : t.Guarded := by
  simp only [LockWorld.advance] at hstep
  split_ifs at hstep with hphase
  cases hstep
  exact hw.quiet hold rfl rfl (fun _ hover => ⟨hphase.1, hover.2⟩) LockPhase.noConfusion
    Refresher.noConfusion fun _ _ => not_mem_erase

theorem LockWorld.Guarded.stop (hw : w.Guarded) (hold : w.holders[key]? = some h)
    (hstep : w.advance key h (.stop key) = some t) : t.Guarded := by
  cases hstep
  refine hw.quiet hold rfl rfl ?_ ?_ Refresher.noConfusion fun _ _ h => h
  · rintro other ⟨hgranted, hover⟩
    simp only at hgranted
    split_ifs at hgranted with hbefore
    · exact ⟨hbefore, hover⟩
    · cases hgranted
  · intro hchecked
    simp only at hchecked
    split_ifs at hchecked

theorem advance_lost {s : LockStep} (hstep : w.advance key h s = some t) :
    ∃ h', t.holders = w.holders.insert key h' ∧ (h.lost = true → h'.lost = true) := by
  cases s with
  | write key exclusive modified => cases hstep
  | judge key reads | removeStale key =>
      simp only [LockWorld.advance] at hstep
      split at hstep
      · cases hstep
        exact ⟨_, rfl, id⟩
      · cases hstep
  | wake key =>
      simp only [LockWorld.advance] at hstep
      split_ifs at hstep
      · cases hstep
        exact ⟨_, rfl, id⟩
      · cases hstep
        exact ⟨_, rfl, fun _ => rfl⟩
  | stop key =>
      cases hstep
      exact ⟨_, rfl, id⟩
  | _ =>
      simp only [LockWorld.advance] at hstep
      split_ifs at hstep
      all_goals
        cases hstep
        exact ⟨_, rfl, id⟩

theorem LockWorld.Guarded.wake_lost (hw : w.Guarded) (hremoved : key ∈ w.removed)
    (hstep : w.advance key h (.wake key) = some t) :
    ∃ h', t.holders[key]? = some h' ∧ h'.lost = true := by
  simp only [LockWorld.advance] at hstep
  split_ifs at hstep with hsleeping hthere
  · exact absurd (Std.ExtTreeMap.contains_iff_mem.mp hthere) (hw.gone key hremoved).1
  · cases hstep
    exact ⟨_, (StringMap.getElem?_insert ..).trans (if_pos rfl), rfl⟩

end Steps

section Runs

variable {x y : LockHistory} {s : LockStep}

theorem LockHistory.Guarded.world_step {w : LockWorld} (hx : x.Guarded) (hguard : Noticed x s)
    (hstep : x.world.step s = some w) : w.Guarded := by
  unfold LockWorld.step at hstep
  cases hold : x.world.holders[s.key]? with
  | none =>
      rw [hold] at hstep
      cases s with
      | write key exclusive modified =>
          simp only at hstep
          split_ifs at hstep with hfresh
          cases hstep
          exact hx.world.write hfresh
      | _ => cases hstep
  | some h =>
      rw [hold] at hstep
      cases s with
      | write key exclusive modified => cases hstep
      | list key now => exact hx.world.list hold hstep
      | judge key reads => exact hx.world.judge hold hstep
      | yield key => exact hx.world.yield hold hstep
      | grant key => exact hx.world.grant (hguard h hold) hstep
      | wake key => exact hx.world.wake hold hstep
      | rewrite key modified => exact hx.world.rewrite hold hstep
      | rewriteFails key => exact hx.world.rewriteFails hold hstep
      | listStale key => exact hx.world.listStale hold hstep
      | removeStale key =>
          exact hx.world.removeStale hold (fun stale rest => hguard h stale rest hold) hstep
      | ensureHeld key =>
          refine hx.world.ensureHeld hold (fun hlost => ?_) hstep
          obtain ⟨g, hg, hflag⟩ := hx.flagged key (hguard hlost)
          cases hg.symm.trans hold
          exact hflag
      | saveSnapshot key => exact hx.world.saveSnapshot hold hstep
      | release key => exact hx.world.release hold hstep
      | stop key => exact hx.world.stop hold hstep

theorem lost_step {w t : LockWorld} {key : String} (hstep : w.step s = some t)
    (hflagged : ∃ h, w.holders[key]? = some h ∧ h.lost = true) :
    ∃ h, t.holders[key]? = some h ∧ h.lost = true := by
  obtain ⟨h, hh, hflag⟩ := hflagged
  unfold LockWorld.step at hstep
  cases hold : w.holders[s.key]? with
  | none =>
      rw [hold] at hstep
      cases s with
      | write other exclusive modified =>
          simp only at hstep
          split_ifs at hstep
          cases hstep
          refine ⟨h, ?_, hflag⟩
          simp only [LockWorld.put, StringMap.getElem?_insert]
          rw [if_neg, hh]
          rintro rfl
          cases hold.symm.trans hh
      | _ => cases hstep
  | some g =>
      rw [hold] at hstep
      obtain ⟨g', hholders, hkept⟩ := advance_lost hstep
      rw [hholders, StringMap.getElem?_insert]
      by_cases hkey : s.key = key
      · rw [if_pos hkey]
        rw [hkey, hh] at hold
        cases hold
        exact ⟨g', rfl, hkept hflag⟩
      · rw [if_neg hkey]
        exact ⟨h, hh, hflag⟩

theorem LockHistory.Guarded.step (hx : x.Guarded) (hguard : Noticed x s)
    (hstep : x.step s = some y) : y.Guarded := by
  obtain ⟨w, hw, rfl⟩ := Option.map_eq_some_iff.mp hstep
  refine ⟨hx.world_step hguard hw, fun key hkey => ?_⟩
  have hbefore : key ∈ x.woken → ∃ h, w.holders[key]? = some h ∧ h.lost = true :=
    fun hmem => lost_step hw (hx.flagged key hmem)
  cases s with
  | wake other =>
      simp only at hkey
      split_ifs at hkey with hremoved
      · rcases List.mem_cons.mp hkey with rfl | hmem
        · unfold LockWorld.step at hw
          cases hold : x.world.holders[(LockStep.wake key).key]? with
          | none =>
              rw [hold] at hw
              cases hw
          | some h =>
              rw [hold] at hw
              exact hx.world.wake_lost hremoved hw
        · exact hbefore hmem
      · exact hbefore hkey
  | _ => exact hbefore hkey

end Runs

/-- A run with no lock of this repository's devices yet; there may be others' old ones. -/
def LockHistory.Idle (x : LockHistory) : Prop :=
  x.world.holders = ∅ ∧ x.world.removed = [] ∧ x.woken = []

/-- However backups and prunes are interleaved and stopped: where the refresher of a lost lock wakes
up between the loss and the check, and no loss falls between a head and its put or between a check
and its snapshot, a backup that writes its snapshot has not lost its lock before. -/
theorem lost_lock_never_publishes {start x y : LockHistory} {steps : List LockStep} {key : String}
    (hidle : start.Idle) (hrun : Runs LockHistory.step Noticed start steps x)
    (hsave : x.step (.saveSnapshot key) = some y) : ¬ x.world.Lost key := by
  have hstart : start.Guarded := by
    refine ⟨⟨?_, ?_⟩, ?_⟩
    · intro key h hh
      rw [hidle.1] at hh
      cases hh
    · intro key hgone
      rw [hidle.2.1] at hgone
      cases hgone
    · intro key hwoken
      rw [hidle.2.2] at hwoken
      cases hwoken
  have hguarded := hrun.invariant hstart fun _ _ _ hx hguard hstep => hx.step hguard hstep
  obtain ⟨w, hw, -⟩ := Option.map_eq_some_iff.mp hsave
  unfold LockWorld.step at hw
  cases hold : x.world.holders[(LockStep.saveSnapshot key).key]? with
  | none =>
      rw [hold] at hw
      cases hw
  | some h =>
      rw [hold] at hw
      simp only [LockWorld.advance] at hw
      split_ifs at hw with hphase
      exact hguarded.world.checked key h hold hphase

def LockHistory.notices (x : LockHistory) : LockStep → Bool
  | .removeStale prune => x.world.holders[prune]?.all fun p =>
      match p.phase with
      | .removing (stale :: _) => x.world.holders[stale]?.all fun h =>
          h.refresher ≠ .rewriting && h.phase ≠ .checked
      | _ => true
  | .grant prune => x.world.holders[prune]?.all fun p =>
      !p.exclusive || p.passedOver.all fun key =>
        x.world.holders[key]?.all fun h => h.phase ≠ .checked
  | .ensureHeld key => key ∈ x.woken || !(key ∈ x.world.removed ||
      x.world.holders.toList.any fun entry =>
        entry.2.phase.granted && entry.2.exclusive && key ∈ entry.2.passedOver)
  | _ => true

theorem noticed_of_notices {x : LockHistory} {s : LockStep} (hnotices : x.notices s = true) :
    Noticed x s := by
  cases s with
  | removeStale prune =>
      intro p stale rest hp hphase h hh
      simp only [LockHistory.notices, hp, Option.all_some, hphase, hh, Bool.and_eq_true,
        decide_eq_true_eq] at hnotices
      exact hnotices
  | grant prune =>
      intro p hp hexclusive key hkey h hh
      simp only [LockHistory.notices, hp, Option.all_some, hexclusive, Bool.not_true, Bool.false_or,
        List.all_eq_true] at hnotices
      have hover := hnotices key hkey
      rw [hh, Option.all_some, decide_eq_true_eq] at hover
      exact hover
  | ensureHeld key =>
      simp only [LockHistory.notices, Bool.or_eq_true, decide_eq_true_eq, Bool.not_eq_true',
        Bool.or_eq_false_iff, decide_eq_false_iff_not] at hnotices
      rintro (hgone | ⟨prune, p, hp, hgranted, hexclusive, hmem⟩)
      · exact hnotices.resolve_right fun hnot => hnot.1 hgone
      · refine hnotices.resolve_right fun hnot => ?_
        have hentry := List.any_eq_false.mp hnot.2 (prune, p)
          (Std.ExtTreeMap.mem_toList_iff_getElem?_eq_some.mpr hp)
        simp [hgranted, hexclusive, hmem] at hentry
  | _ => trivial

def idleLocks : LockWorld := ⟨∅, ∅, [], []⟩

/-- A backup is refreshed once and then sleeps, a prune removes its lock, its refresher wakes up
before its check, and a second backup runs to its snapshot. -/
def lostAndNoticed : List LockStep :=
  [.write "a" false (some 0), .list "a" 0, .grant "a", .wake "a", .rewrite "a" (some 1),
    .write "prune" true (some (staleAfter + 1)), .list "prune" 0, .grant "prune",
    .listStale "prune", .removeStale "prune", .wake "a", .ensureHeld "a", .release "prune",
    .write "b" false (some (staleAfter + 2)), .list "b" 0, .grant "b", .ensureHeld "b"]

theorem lostAndNoticed_runs : (execute (checked LockHistory.notices LockHistory.step)
    ⟨idleLocks, []⟩ lostAndNoticed).isSome := by decide +kernel

def secondBackup : LockHistory :=
  (execute (checked LockHistory.notices LockHistory.step)
    ⟨idleLocks, []⟩ lostAndNoticed).get lostAndNoticed_runs

theorem lost_lock_never_publishes_noticed :
    secondBackup.world.removed = ["a"] ∧ secondBackup.world.holders["a"]?.map Holder.phase =
      some .refused ∧ ¬ secondBackup.world.Lost "b" := by
  have hrun : Runs LockHistory.step Noticed ⟨idleLocks, []⟩ lostAndNoticed secondBackup :=
    checked_runs (fun _ _ => noticed_of_notices) (Option.some_get _).symm
  have hsaves : (secondBackup.step (.saveSnapshot "b")).isSome := by decide +kernel
  obtain ⟨y, hy⟩ := Option.isSome_iff_exists.mp hsaves
  exact ⟨by decide +kernel, by decide +kernel,
    lost_lock_never_publishes ⟨rfl, rfl, rfl⟩ hrun hy⟩

/-- The backup's machine sleeps while a prune judges its lock stale and removes it. It goes on with
its check and its snapshot before its refresher wakes. -/
def sleepingBackup : List LockStep :=
  [.write "backup" false (some 0), .list "backup" 0, .grant "backup",
    .write "prune" true (some staleAfter), .list "prune" 0, .grant "prune", .listStale "prune",
    .removeStale "prune", .ensureHeld "backup", .saveSnapshot "backup"]

theorem lost_lock_publishes :
    (execute LockWorld.step idleLocks sleepingBackup).map LockWorld.removed = some ["backup"] ∧
    (execute LockWorld.step idleLocks sleepingBackup).map LockWorld.snapshots =
      some ["backup"] := by
  constructor
  · decide +kernel
  · decide +kernel

end FileMirror
