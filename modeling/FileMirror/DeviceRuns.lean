import FileMirror.BaselineBehindLog
import FileMirror.SettingAside

set_option autoImplicit false

namespace FileMirror

open WriteAhead

/-- What a pass reads, when, how its transfers end, and how many of its effects it gets to. -/
structure Round where
  options : PassOptions
  utc : ℕ → String
  snapshot : Manifest
  deltas : List DeltaEntry
  events : PassEvents
  reaches : ℕ

/-- Neither `resume_uploads` nor `apply` returns an error. -/
def passFinishes (plan : Plan) (manifest : Manifest) (remoteLamport : ℕ) (device : DeviceState)
    (events : PassEvents) : Bool :=
  match resumeUploads manifest (events.clock device (nextLamport remoteLamport device.lamport))
    events.uploads with
  | (_, none) => false
  | (effects, some (manifest, resumed)) =>
      let lamport := nextLamport remoteLamport (lamportAfter device effects)
      (apply (dropResumed plan resumed) events.joined manifest (events.clock device lamport)).2

namespace Round

def merged (r : Round) : MergeResult := mergeDeltas r.snapshot r.deltas

def conflicts (r : Round) : List (RemoteConflict × String) := stamped r.utc r.merged

/-- `preserve_conflict_losers` as far as it gets. -/
def preserved (r : Round) (w : World) : Preserving :=
  (preserveConflictLosers r.conflicts w.tree w.device).1

def passPlan (r : Round) (w : World) : PassPlan := planFrom r.options r.merged (r.preserved w)

/-- Where `plan_pass` leaves the device. -/
def planned (r : Round) (w : World) : World :=
  { w with
    device := (r.preserved w).state
    tree := removeStale r.options (r.preserved w).state (r.preserved w).tree }

def effects (r : Round) (w : World) : List Effect :=
  passEffects (r.passPlan w).plan (r.passPlan w).manifest (r.passPlan w).remoteLamport
    (r.planned w).device r.events

/-- The pass gets to its end, where it records what it scanned. -/
def Completes (r : Round) (w : World) : Prop :=
  (preserveConflictLosers r.conflicts w.tree w.device).2 = true ∧
    (r.effects w).length < r.reaches ∧
    passFinishes (r.passPlan w).plan (r.passPlan w).manifest (r.passPlan w).remoteLamport
      (r.planned w).device r.events = true

instance (r : Round) (w : World) : Decidable (r.Completes w) := inferInstanceAs (Decidable (_ ∧ _))

theorem planPass_eq (r : Round) (w : World) :
    planPass r.options r.utc r.snapshot r.deltas w =
      if (preserveConflictLosers r.conflicts w.tree w.device).2 = true
      then some (r.passPlan w, r.planned w) else none := by
  split_ifs with h
  · exact planPass_eq_some_iff.mpr ⟨r.preserved w, Prod.ext rfl h, rfl, rfl⟩
  · rw [Option.eq_none_iff_forall_ne_some]
    rintro ⟨pass, t⟩ hplan
    obtain ⟨preserved, hpreserved, -⟩ := planPass_eq_some_iff.mp hplan
    exact h (congrArg Prod.snd hpreserved)

/-- What `reconcile_with` sees besides the scan, the baseline and the manifest. -/
def view (r : Round) (w : World) : ResidencyView :=
  ⟨(r.passPlan w).scan.placeholders, r.options.policy, r.options.hydrate⟩

end Round

def World.pass (w : World) (r : Round) : World :=
  if (preserveConflictLosers r.conflicts w.tree w.device).2 then
    let t := ((r.effects w).take r.reaches).foldl (World.run r.events.unix) (r.planned w)
    if r.Completes w then
      { t with device := t.device.recordScan (r.passPlan w).scan.entries }
    else t
  else { w with device := (r.preserved w).state, tree := (r.preserved w).tree }

inductive Deed where
  | files (tree : LocalTree)
  | pass (round : Round)
  | markEvicted (path : String)
  | markLocal (path : String)

/-- Only a row that is as last synced is marked evicted. -/
def World.deed (w : World) : Deed → Option World
  | .files tree => some { w with tree }
  | .pass round => some (w.pass round)
  | .markEvicted path =>
      match w.device.files[path]? with
      | none => none
      | some record =>
          if record.lastSyncedHash = some record.contentHash
          then some { w with device := w.device.markEvicted path } else none
  | .markLocal path => some { w with device := w.device.markLocal path }

section Effects

variable {plan : Plan} {manifest : Manifest} {remoteLamport : ℕ} {device : DeviceState}
  {events : PassEvents} {path : String} {hash : ContentHash}

theorem passEffects_needs {e : Effect}
    (he : e ∈ passEffects plan manifest remoteLamport device events) :
    ∃ logged, e.needs plan manifest events logged ∧ ∀ d ∈ logged, d.deleted = false →
      ∃ r, events.Sent d.path r ∧ r.contentHash = d.plaintextHash := by
  obtain ⟨es, a, sent, lamport, heffects, hjustified, -, -, happlied⟩ :=
    passEffects_split plan manifest events remoteLamport device (Nat.zero_le _) (Nat.zero_le _)
  have hall : Justified Effect.writes (Effect.needs plan manifest events) [] (es ++ a.effects) := by
    rw [justified_append]
    exact ⟨hjustified, happlied.justified⟩
  rw [heffects] at he
  refine ⟨[] ++ written Effect.writes (es ++ a.effects), ?_, fun d hd => ?_⟩
  · refine Justified.needs_of_mem ?_ hall he
    exact Effect.needs_mono
  · have hknown : d ∈ a.known (written Effect.writes es) := by
      rw [List.nil_append, written_append] at hd
      exact List.mem_append_left _ hd
    exact (happlied.logged d hknown).sent

theorem passEffects_confirms {e : Effect}
    (he : e ∈ passEffects plan manifest remoteLamport device events)
    (hconfirms : e.Confirms path hash) : Fetched plan manifest events path hash ∨
      ∃ r, events.Sent path r ∧ r.contentHash = hash := by
  obtain ⟨logged, hneeds, hsent⟩ := passEffects_needs he
  rcases hconfirms.needs hneeds with hfetched | ⟨d, hd, rfl, rfl, hlive⟩
  · exact .inl hfetched
  · exact .inr (hsent d hd hlive)

theorem passEffects_removeRow
    (he : .removeRow path ∈ passEffects plan manifest remoteLamport device events) :
    ⟨path, .deleteLocal⟩ ∈ plan.actions ∨ ⟨path, .conflict⟩ ∈ plan.actions ∨
      ⟨path, .deleteRemote⟩ ∈ plan.actions := by
  obtain ⟨logged, hneeds, -⟩ := passEffects_needs he
  exact hneeds.imp_right (Or.imp_right And.left)

/-- The operation has been performed or waits for the next flush. -/
def Applying.Carries (a : Applying) (op : BaselineOp) : Prop :=
  op ∈ a.batchOps ∨ op.effects ⊆ a.effects

variable {a a' : Applying} {op : BaselineOp} {clock : PassClock} {lamport : ℕ}

theorem Applying.Carries.flush (h : a.Carries op) : op.effects ⊆ (flush lamport a).effects := by
  intro e he
  simp only [FileMirror.flush, List.mem_append, List.mem_flatMap]
  rcases h with hmem | hsub
  · exact .inr (.inr ⟨op, hmem, he⟩)
  · exact .inl (hsub he)

theorem Applying.Carries.flushIfFull (h : a.Carries op) : (flushIfFull lamport a).Carries op := by
  unfold FileMirror.flushIfFull
  split_ifs
  · exact .inr h.flush
  · exact h

theorem actOne_grows {action : Action} (h : actOne clock a action = some a') :
    ∃ acted : Applying, a' = flushIfFull clock.lamport acted ∧
      a.batchOps ⊆ acted.batchOps ∧ a.effects ⊆ acted.effects ∧
      acted.pinnedSources = a.pinnedSources := by
  obtain ⟨path, kind⟩ := action
  unfold actOne at h
  obtain ⟨acted, hacted, rfl⟩ := Option.map_eq_some_iff.mp h
  refine ⟨acted, rfl, ?_⟩
  cases kind with
  | createPlaceholder =>
      simp only at hacted
      split_ifs at hacted
      · cases hacted
        simp
      · obtain ⟨entry, -, rfl⟩ := Option.map_eq_some_iff.mp hacted
        simp
  | updatePlaceholder =>
      simp only at hacted
      split_ifs at hacted
      · cases hacted
        simp
      · obtain ⟨entry, -, rfl⟩ := Option.map_eq_some_iff.mp hacted
        simp
  | deleteLocal =>
      cases hacted
      simp
  | deleteRemote =>
      simp only at hacted
      split_ifs at hacted
      · cases hacted
        simp
      · cases hacted
        simp
  | conflict =>
      obtain ⟨target, -, rfl⟩ := Option.map_eq_some_iff.mp hacted
      simp
  | _ =>
      cases hacted
      simp

theorem actAll_carries {actions : List Action} (h : a.Carries op) :
    (actAll clock actions a).1.Carries op := by
  induction actions generalizing a with
  | nil => exact h
  | cons action actions ih =>
      unfold actAll
      cases hact : actOne clock a action with
      | none => exact h
      | some a' =>
          obtain ⟨acted, rfl, hops, heffects, -⟩ := actOne_grows hact
          have hacted : acted.Carries op :=
            h.imp (fun hop => hops hop) fun hsub => List.Subset.trans hsub heffects
          exact ih hacted.flushIfFull

theorem flushIfFull_pinned : (flushIfFull lamport a).pinnedSources = a.pinnedSources := by
  unfold FileMirror.flushIfFull
  split_ifs <;> rfl

theorem actAll_performs {P : BaselineOp → Prop} {actions : List Action} {action : Action}
    (hmem : action ∈ actions) (hended : (actAll clock actions a).2 = true)
    (hasks : ∀ b b' : Applying, b.pinnedSources = a.pinnedSources →
      actOne clock b action = some b' → ∃ op, P op ∧ b'.Carries op) :
    ∃ op, P op ∧ (actAll clock actions a).1.Carries op := by
  induction actions generalizing a with
  | nil => cases hmem
  | cons first actions ih =>
      unfold actAll at hended ⊢
      cases hact : actOne clock a first with
      | none =>
          rw [hact] at hended
          cases hended
      | some b =>
          rw [hact] at hended
          rcases List.mem_cons.mp hmem with rfl | hmem
          · obtain ⟨op, hop, hcarries⟩ := hasks a b rfl hact
            exact ⟨op, hop, actAll_carries hcarries⟩
          · obtain ⟨acted, rfl, -, -, hpinned⟩ := actOne_grows hact
            refine ih hmem hended fun c c' hc => hasks c c' ?_
            rw [hc, flushIfFull_pinned, hpinned]

theorem joinAll_pinned {joined : List (Action × Outcome)} {source : String}
    (h : source ∈ (joined.foldl (joinOne plan clock) a).pinnedSources) :
    source ∈ a.pinnedSources ∨ ∃ action error entry, (action, Outcome.failed error) ∈ joined ∧
      plan.relocations[action.path]? = some entry ∧ entry.path = source := by
  induction joined generalizing a with
  | nil => exact .inl h
  | cons j joined ih =>
      rcases ih h with h | ⟨action, error, entry, hmem, hentry⟩
      · unfold joinOne at h
        rw [flushIfFull_pinned] at h
        obtain ⟨action, outcome⟩ := j
        cases outcome with
        | failed error =>
            simp only [List.mem_append, Option.mem_toList, Option.map_eq_some_iff] at h
            refine h.imp_right ?_
            rintro ⟨entry, hentry, hsource⟩
            exact ⟨action, error, entry, List.mem_cons_self .., hentry, hsource⟩
        | _ => exact .inl h
      · exact .inr ⟨action, error, entry, List.mem_cons_of_mem _ hmem, hentry⟩

theorem passEffects_performs {P : BaselineOp → Prop} {action : Action}
    (hfinishes : passFinishes plan manifest remoteLamport device events = true)
    (hmem : action ∈ plan.actions) (hkind : action.kind ≠ .upload)
    (hasks : ∀ (clock : PassClock) (b b' : Applying), (∀ source ∈ b.pinnedSources,
        ∃ failed error entry, (failed, Outcome.failed error) ∈ events.joined ∧
          plan.relocations[failed.path]? = some entry ∧ entry.path = source) →
      actOne clock b action = some b' → ∃ op, P op ∧ b'.Carries op) :
    ∃ op, P op ∧ op.effects ⊆ passEffects plan manifest remoteLamport device events := by
  unfold passFinishes at hfinishes
  unfold passEffects
  dsimp only at hfinishes ⊢
  generalize resumeUploads manifest _ events.uploads = resumed at hfinishes ⊢
  obtain ⟨effects, resumed⟩ := resumed
  cases resumed with
  | none => cases hfinishes
  | some resumed =>
      obtain ⟨manifest', paths⟩ := resumed
      simp only at hfinishes ⊢
      generalize events.clock device _ = clock at hfinishes ⊢
      have hkept : action ∈ (dropResumed plan paths).actions := by
        simp only [dropResumed, List.mem_filter]
        exact ⟨hmem, by simp [hkind]⟩
      unfold apply at hfinishes ⊢
      dsimp only at hfinishes ⊢
      split_ifs at hfinishes ⊢ with hspawn
      generalize hjoined : events.joined.foldl (joinOne (dropResumed plan paths) clock)
        ⟨manifest', [], [], 0, [], [], []⟩ = start at hfinishes ⊢
      have hpinned : ∀ source ∈ start.pinnedSources, ∃ failed error entry,
          (failed, Outcome.failed error) ∈ events.joined ∧
            plan.relocations[failed.path]? = some entry ∧ entry.path = source := by
        intro source hsource
        rw [← hjoined] at hsource
        rcases joinAll_pinned hsource with h | h
        · cases h
        · exact h
      cases hall : actAll clock (dropResumed plan paths).actions start with
      | mk a ended =>
          rw [hall] at hfinishes
          cases ended with
          | false => cases hfinishes
          | true =>
              have hcarries : ∃ op, P op ∧
                  (actAll clock (dropResumed plan paths).actions start).1.Carries op := by
                refine actAll_performs hkept (by rw [hall]) fun b b' hb => hasks clock b b' ?_
                rw [hb]
                exact hpinned
              obtain ⟨op, hop, hcarries⟩ := hcarries
              rw [hall] at hcarries
              refine ⟨op, hop, fun e he => ?_⟩
              simp only [List.mem_append]
              exact .inr (.inl (hcarries.flush he))

theorem passEffects_deleteLocal
    (hfinishes : passFinishes plan manifest remoteLamport device events = true)
    (hmem : ⟨path, .deleteLocal⟩ ∈ plan.actions) :
    .removeRow path ∈ passEffects plan manifest remoteLamport device events := by
  obtain ⟨op, rfl, hsub⟩ : ∃ op, op = .remove path ∧
      BaselineOp.effects op ⊆ passEffects plan manifest remoteLamport device events := by
    refine passEffects_performs hfinishes hmem (by simp) fun clock b b' _ hact => ?_
    unfold actOne at hact
    obtain ⟨acted, hacted, rfl⟩ := Option.map_eq_some_iff.mp hact
    cases hacted
    exact ⟨_, rfl, Applying.Carries.flushIfFull (.inl (by simp))⟩
  exact hsub (by simp [BaselineOp.effects])

theorem passEffects_updatePlaceholder
    (hfinishes : passFinishes plan manifest remoteLamport device events = true)
    (hmem : ⟨path, .updatePlaceholder⟩ ∈ plan.actions)
    (hfree : ∀ action error entry, (action, Outcome.failed error) ∈ events.joined →
      plan.relocations[action.path]? = some entry → entry.path ≠ path) :
    ∃ size hash, .confirmPlaceholder path size hash ∈
      passEffects plan manifest remoteLamport device events := by
  obtain ⟨op, ⟨stub, hash, rfl, rfl⟩, hsub⟩ : ∃ op, (∃ stub hash,
      op = BaselineOp.placeholder stub hash ∧ stub.path = path) ∧
        op.effects ⊆ passEffects plan manifest remoteLamport device events := by
    refine passEffects_performs hfinishes hmem (by simp) fun clock b b' hb hact => ?_
    unfold actOne at hact
    obtain ⟨acted, hacted, rfl⟩ := Option.map_eq_some_iff.mp hact
    simp only at hacted
    split_ifs at hacted with hpinned
    · obtain ⟨action, error, entry, hjoined, hentry, hpath⟩ := hb path hpinned
      exact absurd hpath (hfree action error entry hjoined hentry)
    · obtain ⟨entry, -, rfl⟩ := Option.map_eq_some_iff.mp hacted
      exact ⟨_, ⟨_, _, rfl, rfl⟩, Applying.Carries.flushIfFull
        (.inl (List.mem_append_right _ (List.mem_singleton_self _)))⟩
  exact ⟨stub.size, hash, hsub (by simp [BaselineOp.effects])⟩

end Effects

section Planned

variable {r : Round} {w : World} {path : String} {kind : ActionKind}

theorem localHash_absent {ignored : String → Bool} {cache : Baseline} {tree : LocalTree}
    (h : tree[path]? = none) : localHash (scanAllWith ignored cache tree).entries path = none := by
  rw [localHash_eq_none]
  rintro entry hentry rfl
  obtain ⟨file, hfile, -⟩ := scan_entries_path hentry
  rw [h] at hfile
  cases hfile

theorem foldl_addRelocation_mem {plan : Plan} {relocations : List (String × DeltaEntry)}
    {a : Action} (h : a ∈ plan.actions) :
    a ∈ (relocations.foldl addRelocation plan).actions ∨ a.kind = .hydrate ∧
      ⟨a.path, .updatePlaceholder⟩ ∈ (relocations.foldl addRelocation plan).actions := by
  induction relocations generalizing plan a with
  | nil => exact .inl h
  | cons x relocations ih =>
      by_cases hhit : a.path = x.2.path ∧ a.kind = .hydrate
      · have hmapped : ⟨a.path, .updatePlaceholder⟩ ∈ (addRelocation plan x).actions := by
          simp only [addRelocation, List.mem_append, List.mem_map]
          exact .inl ⟨a, h, by rw [if_pos hhit]⟩
        rcases ih hmapped with hkept | ⟨hkind, -⟩
        · exact .inr ⟨hhit.2, hkept⟩
        · cases hkind
      · have hkept : a ∈ (addRelocation plan x).actions := by
          simp only [addRelocation, List.mem_append, List.mem_map]
          exact .inl ⟨a, h, if_neg hhit⟩
        exact ih hkept

theorem Round.mem_actions
    (h : (planPath (r.passPlan w).scan.entries (r.preserved w).state.files r.merged.manifest
      (r.view w) path).1 = some kind) : ⟨path, kind⟩ ∈ (r.passPlan w).plan.actions ∨
        kind = .hydrate ∧ ⟨path, .updatePlaceholder⟩ ∈ (r.passPlan w).plan.actions := by
  simp only [passPlan, planFrom, mem_sortActions]
  exact foldl_addRelocation_mem (mem_reconcileWith.mpr h)

theorem Round.of_mem_actions (h : ⟨path, kind⟩ ∈ (r.passPlan w).plan.actions) : kind = .relocate ∨
    (planPath (r.passPlan w).scan.entries (r.preserved w).state.files r.merged.manifest
      (r.view w) path).1 = some kind ∨ kind = .updatePlaceholder := by
  simp only [passPlan, planFrom, mem_sortActions] at h
  exact (foldl_addRelocation_actions h).imp_right (Or.imp mem_reconcileWith.mp And.left)

end Planned

end FileMirror
