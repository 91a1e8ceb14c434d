import FileMirror.ConflictOnce
import FileMirror.MovedPlaceholders
import FileMirror.PassOrigins

set_option autoImplicit false

namespace FileMirror

open WriteAhead

def Effect.records (path : String) : Effect → Option (Option ContentHash)
  | .confirmSync p _ _ hash | .confirmPlaceholder p _ hash =>
      if p = path then some (some hash) else none
  | .removeRow p => if p = path then some none else none
  | _ => none

def recorded (es : List Effect) (path : String) : Option (Option ContentHash) :=
  (es.filterMap (Effect.records path)).getLast?

section Recorded

variable {es fs : List Effect} {e : Effect} {path : String} {w : World} {now : String → ℕ}

theorem recorded_append : recorded (es ++ fs) path = (recorded fs path).or (recorded es path) := by
  rw [recorded, List.filterMap_append, List.getLast?_append]
  rfl

theorem recorded_silent (h : ∀ e ∈ es, e.records path = none) : recorded es path = none := by
  rw [recorded, List.filterMap_eq_nil_iff.mpr h]
  rfl

theorem recorded_singleton : recorded [e] path = e.records path := by
  unfold recorded
  cases h : e.records path with
  | none => simp [h]
  | some s => simp [h]

theorem recorded_ne_none (he : e ∈ es) (h : e.records path ≠ none) : recorded es path ≠ none := by
  obtain ⟨s, hs⟩ := Option.ne_none_iff_exists'.mp h
  intro hnone
  rw [recorded, List.getLast?_eq_none_iff] at hnone
  have hmem : s ∈ es.filterMap (Effect.records path) := List.mem_filterMap.mpr ⟨e, he, hs⟩
  rw [hnone] at hmem
  cases hmem

theorem lastSynced_run : (w.run now e).device.files.lastSynced path =
    (e.records path).getD (w.device.files.lastSynced path) := by
  cases e with
  | confirmSync p size mtimeNs hash =>
      simp only [World.run, DeviceState.confirmSync, Baseline.lastSynced, Effect.records,
        StringMap.getElem?_insert]
      split_ifs <;> rfl
  | confirmPlaceholder p size hash =>
      simp only [World.run, DeviceState.confirmPlaceholder, Baseline.lastSynced, Effect.records,
        StringMap.getElem?_insert]
      split_ifs <;> rfl
  | removeRow p =>
      simp only [World.run, DeviceState.remove, Baseline.lastSynced, Effect.records,
        StringMap.getElem?_erase]
      split_ifs <;> rfl
  | recordHydrated p => exact lastSynced_updateRow fun _ => rfl
  | _ => rfl

theorem lastSynced_runAll : (es.foldl (World.run now) w).device.files.lastSynced path =
    (recorded es path).getD (w.device.files.lastSynced path) := by
  induction es generalizing w with
  | nil => rfl
  | cons e es ih =>
      rw [List.foldl_cons, ih, lastSynced_run, ← List.singleton_append, recorded_append,
        recorded_singleton]
      cases recorded es path <;> rfl

end Recorded

def Applying.pending (a : Applying) : List Effect :=
  a.effects ++ a.batchOps.flatMap BaselineOp.effects

def PassEvents.Downloaded (events : PassEvents) (path : String) (hash : ContentHash) : Prop :=
  ∃ action d, (action, .downloaded d) ∈ events.joined ∧ action.path = path ∧ d.contentHash = hash

def Applying.Records (before : List Effect) (events : PassEvents) (path : String) (a : Applying) :
    Prop :=
  ∀ s, recorded (before ++ a.pending) path = some s →
    s = a.manifest[path]?.map DeltaEntry.plaintextHash ∨
      ∃ hash, s = some hash ∧ events.Downloaded path hash

namespace Applying.Records

variable {before : List Effect} {events : PassEvents} {path : String} {a a' : Applying}
  {clock : PassClock} {plan : Plan} {lamport : ℕ}

theorem recorded_flush : recorded (before ++ (flush lamport a).pending) path =
    recorded (before ++ a.pending) path := by
  have hlogged : recorded (if a.deltas = [] then []
      else [Effect.logDelta lamport a.flushSeq a.deltas]) path = none := by
    apply recorded_silent
    intro e he
    split_ifs at he
    · cases he
    · rw [List.mem_singleton.mp he]
      rfl
  simp only [Applying.pending, FileMirror.flush, List.flatMap_nil, List.append_nil,
    recorded_append, hlogged, Option.none_or, Option.or_assoc]

theorem flush (h : a.Records before events path) : (flush lamport a).Records before events path := by
  intro s hs
  rw [recorded_flush] at hs
  exact h s hs

theorem flushIfFull (h : a.Records before events path) :
    (flushIfFull lamport a).Records before events path := by
  unfold FileMirror.flushIfFull
  split_ifs
  · exact h.flush
  · exact h

theorem extend (ops : List BaselineOp) (es : List Effect) (h : a.Records before events path)
    (hes : ∀ e ∈ es, e.records path = none)
    (hquiet : recorded (ops.flatMap BaselineOp.effects) path = none →
      a'.manifest[path]? = a.manifest[path]?)
    (hloud : ∀ s, recorded (ops.flatMap BaselineOp.effects) path = some s →
      s = a'.manifest[path]?.map DeltaEntry.plaintextHash ∨
        ∃ hash, s = some hash ∧ events.Downloaded path hash)
    (hbatch : a'.batchOps = a.batchOps ++ ops) (heffects : a'.effects = a.effects ++ es) :
    a'.Records before events path := by
  intro s hs
  have hsplit : recorded (before ++ a'.pending) path =
      (recorded (ops.flatMap BaselineOp.effects) path).or (recorded (before ++ a.pending) path) := by
    simp only [Applying.pending, hbatch, heffects, List.flatMap_append, recorded_append,
      recorded_silent hes, Option.none_or, Option.or_assoc]
  rw [hsplit] at hs
  cases hops : recorded (ops.flatMap BaselineOp.effects) path with
  | none =>
      rw [hops, Option.none_or] at hs
      rw [hquiet hops]
      exact h s hs
  | some last =>
      rw [hops, Option.some_or] at hs
      cases hs
      exact hloud s hops

theorem send {q : String} {r : UploadResult} {op : BaselineOp}
    (h : a.Records before events path)
    (hop : recorded op.effects path = if q = path then some (some r.contentHash) else none)
    (hbatch : a'.batchOps = a.batchOps ++ [op]) (heffects : a'.effects = a.effects)
    (hmanifest : a'.manifest = a.manifest.insert q (newDelta a.manifest clock q r)) :
    a'.Records before events path := by
  have hflat : [op].flatMap BaselineOp.effects = op.effects := List.append_nil _
  refine h.extend [op] [] (List.forall_mem_nil _) ?_ ?_ hbatch (by rw [heffects, List.append_nil])
  · rw [hflat, hop, hmanifest, StringMap.getElem?_insert]
    intro hnone
    split_ifs at hnone ⊢
    rfl
  · rw [hflat, hop, hmanifest, StringMap.getElem?_insert]
    intro s hs
    split_ifs at hs ⊢
    cases hs
    exact .inl rfl

theorem joinOne {j : Action × Outcome} (hmem : j ∈ events.joined)
    (h : a.Records before events path) : (joinOne plan clock a j).Records before events path := by
  obtain ⟨action, outcome⟩ := j
  apply flushIfFull
  cases outcome with
  | failed error => exact h
  | deferred => exact h
  | uploaded r =>
      have hop : recorded (BaselineOp.confirm action.path r.size r.mtimeNs r.contentHash).effects
          path = if action.path = path then some (some r.contentHash) else none :=
        recorded_singleton
      exact h.send hop rfl rfl rfl
  | relocated r =>
      refine h.send ?_ rfl rfl rfl
      simp only [BaselineOp.effects, StubMeta.new, recorded, List.filterMap_cons, List.filterMap_nil,
        Effect.records]
      split_ifs <;> rfl
  | downloaded d =>
      have hrecorded : recorded ((BaselineOp.confirm action.path d.size d.mtimeNs d.contentHash ::
          if action.kind = .hydrate then [.hydrated action.path] else []).flatMap
            BaselineOp.effects) path =
          if action.path = path then some (some d.contentHash) else none := by
        have hhydrated : ∀ e ∈ (if action.kind = .hydrate then [BaselineOp.hydrated action.path]
            else []).flatMap BaselineOp.effects, e.records path = none := by
          intro e he
          split_ifs at he
          · rw [List.mem_singleton.mp he]
            rfl
          · cases he
        rw [List.flatMap_cons, recorded_append, recorded_silent hhydrated, Option.none_or]
        exact recorded_singleton
      refine h.extend (_ :: _) [] (List.forall_mem_nil _) (fun _ => rfl) ?_ rfl
        (List.append_nil _).symm
      rw [hrecorded]
      intro s hs
      split_ifs at hs with hpath
      cases hs
      exact .inr ⟨d.contentHash, rfl, action, d, hmem, hpath, rfl⟩

theorem joinAll {joined : List (Action × Outcome)} (hsub : joined ⊆ events.joined)
    (h : a.Records before events path) :
    (joined.foldl (FileMirror.joinOne plan clock) a).Records before events path := by
  induction joined generalizing a with
  | nil => exact h
  | cons j joined ih =>
      have hrest : joined ⊆ events.joined := fun _ hj => hsub (List.mem_cons_of_mem _ hj)
      exact ih hrest (h.joinOne (hsub (List.mem_cons_self ..)))

theorem actOne {action : Action} (hdelete : action ≠ ⟨path, .deleteLocal⟩)
    (hconflict : action ≠ ⟨path, .conflict⟩) (h : a.Records before events path)
    (hact : actOne clock a action = some a') : a'.Records before events path := by
  obtain ⟨q, kind⟩ := action
  unfold FileMirror.actOne at hact
  obtain ⟨acted, hacted, rfl⟩ := Option.map_eq_some_iff.mp hact
  apply flushIfFull
  have hplaces : ∀ (stub : StubMeta) (entry : DeltaEntry), stub.path = q →
      a.manifest[q]? = some entry → Applying.Records before events path
        { a with batchOps := a.batchOps ++ [.placeholder stub entry.plaintextHash] } := by
    intro stub entry hpath hentry
    have hrecorded : recorded ([BaselineOp.placeholder stub entry.plaintextHash].flatMap
        BaselineOp.effects) path = if q = path then some (some entry.plaintextHash) else none := by
      simp only [List.flatMap_cons, List.flatMap_nil, List.append_nil, BaselineOp.effects, recorded,
        List.filterMap_cons, List.filterMap_nil, Effect.records, hpath]
      split_ifs <;> rfl
    refine h.extend [_] [] (List.forall_mem_nil _) (fun _ => rfl) ?_ rfl (List.append_nil _).symm
    rw [hrecorded]
    intro s hs
    split_ifs at hs with hq
    cases hs
    rw [← hq, hentry]
    exact .inl rfl
  have hremoved : recorded ([BaselineOp.remove q].flatMap BaselineOp.effects) path =
      if q = path then some none else none := recorded_singleton
  cases kind with
  | createPlaceholder | updatePlaceholder =>
      simp only at hacted
      split_ifs at hacted
      · cases hacted
        exact h
      · obtain ⟨entry, hentry, rfl⟩ := Option.map_eq_some_iff.mp hacted
        exact hplaces _ entry rfl hentry
  | deleteLocal =>
      cases hacted
      have hq : q ≠ path := fun heq => hdelete (heq ▸ rfl)
      refine h.extend [_] [_] ?_ (fun _ => rfl) ?_ rfl rfl
      · exact List.forall_mem_singleton.mpr rfl
      · rw [hremoved, if_neg hq]
        exact fun _ hs => by cases hs
  | deleteRemote =>
      simp only at hacted
      split_ifs at hacted
      · cases hacted
        exact h
      · cases hacted
        refine h.extend [_] [] (List.forall_mem_nil _) ?_ ?_ rfl (List.append_nil _).symm
        · rw [hremoved]
          intro hnone
          split_ifs at hnone with hq
          simp only
          rw [StringMap.getElem?_erase, if_neg hq]
        · rw [hremoved]
          intro s hs
          split_ifs at hs with hq
          cases hs
          simp only
          rw [StringMap.getElem?_erase, if_pos hq]
          exact .inl rfl
  | conflict =>
      obtain ⟨target, -, rfl⟩ := Option.map_eq_some_iff.mp hacted
      have hq : q ≠ path := fun heq => hconflict (heq ▸ rfl)
      refine h.extend [] [_, _] ?_ (fun _ => rfl) (fun s hs => by cases hs) (List.append_nil _).symm
        rfl
      exact List.forall_mem_cons.mpr ⟨rfl, List.forall_mem_singleton.mpr (if_neg hq)⟩
  | download | hydrate | relocate | upload =>
      cases hacted
      exact h

theorem actAll {actions : List Action} (hdelete : ⟨path, .deleteLocal⟩ ∉ actions)
    (hconflict : ⟨path, .conflict⟩ ∉ actions) (h : a.Records before events path) :
    (actAll clock actions a).1.Records before events path := by
  induction actions generalizing a with
  | nil => exact h
  | cons action actions ih =>
      rw [List.mem_cons, not_or] at hdelete hconflict
      unfold FileMirror.actAll
      cases hact : FileMirror.actOne clock a action with
      | none => exact h
      | some b =>
          exact ih hdelete.2 hconflict.2
            (h.actOne (Ne.symm hdelete.1) (Ne.symm hconflict.1) hact)

end Applying.Records

section Whole

variable {plan : Plan} {manifest m resumedManifest : Manifest} {remoteLamport : ℕ}
  {device : DeviceState} {events : PassEvents} {clock : PassClock} {path : String}
  {before es : List Effect} {resumed : List String} {s : Option ContentHash} {h : ContentHash}
  {a : Applying} {op : BaselineOp}

theorem apply_records (hended : (apply plan events.joined m clock).2 = true)
    (hdelete : ⟨path, .deleteLocal⟩ ∉ plan.actions) (hconflict : ⟨path, .conflict⟩ ∉ plan.actions)
    (hbefore : ∀ s, recorded before path = some s →
      s = m[path]?.map DeltaEntry.plaintextHash)
    (hs : recorded (before ++ (apply plan events.joined m clock).1.effects) path = some s)
    (hlive : (m.replayed (written Effect.writes
      (apply plan events.joined m clock).1.effects)).liveHash path = some h) :
    s = some h ∨ ∃ hash, s = some hash ∧ events.Downloaded path hash := by
  obtain ⟨a, hacted, heffects⟩ := apply_finished hended
  let start : Applying := ⟨m, [], [], 0, [], [], []⟩
  have hstart : start.Records before events path := by
    intro s hs
    have hpending : before ++ start.pending = before := List.append_nil _
    rw [hpending] at hs
    exact .inl (hbefore s hs)
  have hjoined : (events.joined.foldl (joinOne plan clock) start).Records before events path :=
    hstart.joinAll fun _ => id
  have hrecords : (actAll clock plan.actions
      (events.joined.foldl (joinOne plan clock) start)).1.Records before events path :=
    hjoined.actAll hdelete hconflict
  have htracks : (actAll clock plan.actions
      (events.joined.foldl (joinOne plan clock) start)).1.Tracks m :=
    Applying.Tracks.actAll (Applying.Tracks.joinAll fun _ => rfl)
  rw [hacted] at hrecords htracks
  have hflushed : (flush clock.lamport a).Records before events path := hrecords.flush
  have hlast : recorded (before ++ (apply plan events.joined m clock).1.effects) path =
      recorded (before ++ (flush clock.lamport a).pending) path := by
    have hpending : (flush clock.lamport a).pending = (flush clock.lamport a).effects :=
      List.append_nil _
    rw [heffects, hpending, ← List.append_assoc, recorded_append, recorded_singleton]
    rfl
  rw [hlast] at hs
  refine (hflushed s hs).imp_left fun hsame => ?_
  have hmanifest : a.manifest.liveHash path = some h := by
    have hflushed : (flush clock.lamport a).Tracks m := htracks.flush
    have hreplayed := hflushed path
    rw [flush_manifest] at hreplayed
    rw [← hreplayed, ← hlive, heffects, written_append]
    rfl
  rw [hsame, flush_manifest]
  unfold Manifest.liveHash at hmanifest
  cases hentry : a.manifest[path]? with
  | none =>
      rw [hentry] at hmanifest
      cases hmanifest
  | some entry =>
      rw [hentry, Option.bind_some] at hmanifest
      split_ifs at hmanifest
      exact hmanifest

theorem recorded_confirms {completed : List (DeltaEntry × UploadResult)}
    (hsame : ∀ c ∈ completed, c.1.plaintextHash = c.2.contentHash)
    (hs : recorded (completed.map fun c =>
      Effect.confirmSync c.1.path c.2.size c.2.mtimeNs c.2.contentHash) path = some s) :
    s = ((completed.map Prod.fst).foldl (fun m entry => m.insert entry.path entry)
      m)[path]?.map DeltaEntry.plaintextHash := by
  induction completed using List.reverseRecOn with
  | nil => cases hs
  | append_singleton completed c ih =>
      have hrest := ih fun d hd => hsame d (List.mem_append_left _ hd)
      rw [List.map_append, List.map_singleton, recorded_append, recorded_singleton] at hs
      rw [List.map_append, List.map_singleton, List.foldl_append, List.foldl_cons, List.foldl_nil,
        StringMap.getElem?_insert]
      simp only [Effect.records] at hs
      split_ifs at hs ⊢ with hpath
      · cases hs
        rw [Option.map_some, hsame c (List.mem_append_right _ (List.mem_singleton_self _))]
      · exact hrest hs

theorem resumeUploads_records
    (hresumed : resumeUploads manifest clock events.uploads = (es, some (resumedManifest, resumed)))
    (hs : recorded es path = some s) :
    s = resumedManifest[path]?.map DeltaEntry.plaintextHash := by
  have hstart : Resumed manifest events clock ⟨[], []⟩ :=
    ⟨List.forall_mem_nil _, List.forall_mem_nil _⟩
  have hspec := resumeAll_resumed hstart (fun _ => id : events.uploads ⊆ events.uploads)
  unfold resumeUploads at hresumed
  cases hall : resumeAll manifest clock events.uploads ⟨[], []⟩ with
  | mk r finished =>
      rw [hall] at hresumed hspec
      have hsilent : recorded r.effects path = none := by
        apply recorded_silent
        intro e he
        obtain ⟨q, rfl⟩ := hspec.effects e he
        rfl
      cases finished with
      | false => cases hresumed
      | true =>
          simp only at hresumed
          split_ifs at hresumed with hcompleted
          · cases hresumed
            rw [hsilent] at hs
            cases hs
          · cases hresumed
            have hlogs : recorded (r.effects ++ r.logs clock.lamport) path =
                recorded (r.completed.map fun c =>
                  Effect.confirmSync c.1.path c.2.size c.2.mtimeNs c.2.contentHash) path := by
              rw [recorded_append, hsilent, Option.or_none]
              exact rfl
            refine recorded_confirms (fun c hc => ?_) (hlogs.symm.trans hs)
            obtain ⟨upload, -, hdelta⟩ := hspec.completed c hc
            rw [hdelta]
            rfl

theorem passEffects_records
    (hresumed : resumeUploads manifest (events.clock device (nextLamport remoteLamport
      device.lamport)) events.uploads = (es, some (resumedManifest, resumed)))
    (hfinishes : passFinishes plan manifest remoteLamport device events = true)
    (hdelete : ⟨path, .deleteLocal⟩ ∉ plan.actions) (hconflict : ⟨path, .conflict⟩ ∉ plan.actions)
    (hs : recorded (passEffects plan manifest remoteLamport device events) path = some s)
    (hlive : (manifest.replayed (written Effect.writes
      (passEffects plan manifest remoteLamport device events))).liveHash path = some h) :
    s = some h ∨ ∃ hash, s = some hash ∧ events.Downloaded path hash := by
  unfold passFinishes at hfinishes
  unfold passEffects at hs hlive
  rw [hresumed] at hfinishes
  simp only [hresumed] at hfinishes hs hlive
  rw [written_append, replayed_append, resumeUploads_replayed hresumed] at hlive
  exact apply_records hfinishes (fun hmem => hdelete (List.mem_of_mem_filter hmem))
    (fun hmem => hconflict (List.mem_of_mem_filter hmem))
    (fun s => resumeUploads_records hresumed) hs hlive

end Whole

def PassEvents.Transfers (events : PassEvents) (path : String) : Prop :=
  (∃ r, events.Sent path r) ∨ ∃ hash, events.Downloaded path hash

section Touched

variable {plan : Plan} {manifest m resumedManifest : Manifest} {remoteLamport : ℕ}
  {device : DeviceState} {events : PassEvents} {clock : PassClock} {path : String}
  {es : List Effect} {resumed : List String} {a : Applying} {op : BaselineOp}

theorem joinOne_carries {j : Action × Outcome} (h : a.Carries op) :
    (joinOne plan clock a j).Carries op := by
  obtain ⟨action, outcome⟩ := j
  apply Applying.Carries.flushIfFull
  cases outcome with
  | failed | deferred => exact h
  | uploaded | relocated | downloaded => exact h.imp_left (List.mem_append_left _)

theorem joinAll_carries {joined : List (Action × Outcome)} (h : a.Carries op) :
    (joined.foldl (joinOne plan clock) a).Carries op := by
  induction joined generalizing a with
  | nil => exact h
  | cons j joined ih => exact ih (joinOne_carries h)

theorem joinAll_hands {P : BaselineOp → Prop} {joined : List (Action × Outcome)}
    {j : Action × Outcome} (hmem : j ∈ joined)
    (hfirst : ∀ b : Applying, ∃ op, P op ∧ (joinOne plan clock b j).Carries op) :
    ∃ op, P op ∧ (joined.foldl (joinOne plan clock) a).Carries op := by
  induction joined generalizing a with
  | nil => cases hmem
  | cons k joined ih =>
      rcases List.mem_cons.mp hmem with rfl | hmem
      · obtain ⟨op, hop, hcarries⟩ := hfirst a
        have hall : (joined.foldl (joinOne plan clock) (joinOne plan clock a j)).Carries op :=
          joinAll_carries hcarries
        exact ⟨op, hop, hall⟩
      · exact ih hmem

theorem recorded_subset {ops : List Effect} (hsub : ops ⊆ es) (h : recorded ops path ≠ none) :
    recorded es path ≠ none := by
  obtain ⟨e, he, hrecords⟩ : ∃ e ∈ ops, e.records path ≠ none := by
    by_contra hnone
    push Not at hnone
    exact h (recorded_silent hnone)
  exact recorded_ne_none (hsub he) hrecords

theorem passEffects_hands {P : BaselineOp → Prop} {j : Action × Outcome}
    (hfinishes : passFinishes plan manifest remoteLamport device events = true)
    (hmem : j ∈ events.joined)
    (hfirst : ∀ (plan : Plan) (clock : PassClock) (b : Applying),
      ∃ op, P op ∧ (joinOne plan clock b j).Carries op) :
    ∃ op, P op ∧ op.effects ⊆ passEffects plan manifest remoteLamport device events := by
  unfold passFinishes at hfinishes
  unfold passEffects
  dsimp only at hfinishes ⊢
  generalize resumeUploads manifest _ events.uploads = resumption at hfinishes ⊢
  obtain ⟨es, resumption⟩ := resumption
  cases resumption with
  | none => cases hfinishes
  | some resumption =>
      simp only at hfinishes ⊢
      obtain ⟨a, hacted, heffects⟩ := apply_finished hfinishes
      generalize events.clock device _ = clock at hacted heffects ⊢
      obtain ⟨op, hop, hcarries⟩ := joinAll_hands (a := ⟨resumption.1, [], [], 0, [], [], []⟩) hmem
        (hfirst (dropResumed plan resumption.2) clock)
      have hall : (actAll clock (dropResumed plan resumption.2).actions _).1.Carries op :=
        actAll_carries hcarries
      rw [hacted] at hall
      refine ⟨op, hop, ?_⟩
      rw [heffects]
      exact fun e he => List.mem_append_right _ (List.mem_append_left _ (hall.flush he))

theorem passEffects_joined
    (hfinishes : passFinishes plan manifest remoteLamport device events = true) {action : Action}
    {outcome : Outcome} (hmem : (action, outcome) ∈ events.joined)
    (hends : (∃ r, outcome = .uploaded r) ∨ (∃ r, outcome = .relocated r) ∨
      ∃ d, outcome = .downloaded d) :
    recorded (passEffects plan manifest remoteLamport device events) action.path ≠ none := by
  obtain ⟨op, hop, hsub⟩ : ∃ op, recorded (BaselineOp.effects op) action.path ≠ none ∧
      op.effects ⊆ passEffects plan manifest remoteLamport device events := by
    refine passEffects_hands hfinishes hmem fun plan clock b => ?_
    rcases hends with ⟨r, rfl⟩ | ⟨r, rfl⟩ | ⟨d, rfl⟩
    · refine ⟨.confirm action.path r.size r.mtimeNs r.contentHash, ?_, ?_⟩
      · simp [BaselineOp.effects, recorded, Effect.records]
      · exact Applying.Carries.flushIfFull (.inl (by simp))
    · refine ⟨.placeholder (StubMeta.new action.path r.size r.contentHash r.objectKey
        (clock.unix action.path) (some r.mtimeNs)) r.contentHash, ?_, ?_⟩
      · simp [BaselineOp.effects, recorded, Effect.records, StubMeta.new]
      · exact Applying.Carries.flushIfFull (.inl (by simp))
    · refine ⟨.confirm action.path d.size d.mtimeNs d.contentHash, ?_, ?_⟩
      · simp [BaselineOp.effects, recorded, Effect.records]
      · exact Applying.Carries.flushIfFull (.inl (by simp))
  exact recorded_subset hsub hop

theorem passEffects_relocated
    (hfinishes : passFinishes plan manifest remoteLamport device events = true) {action : Action}
    {r : UploadResult} (hmem : (action, .relocated r) ∈ events.joined) :
    ∃ stub, stub.path = action.path ∧
      .writePlaceholder stub ∈ passEffects plan manifest remoteLamport device events := by
  obtain ⟨op, ⟨stub, hash, rfl, hpath⟩, hsub⟩ : ∃ op, (∃ stub hash,
      op = BaselineOp.placeholder stub hash ∧ stub.path = action.path) ∧
        op.effects ⊆ passEffects plan manifest remoteLamport device events := by
    refine passEffects_hands hfinishes hmem fun plan clock b => ?_
    refine ⟨_, ⟨_, r.contentHash, rfl, ?_⟩, Applying.Carries.flushIfFull
      (.inl (List.mem_append_right _ (List.mem_singleton_self _)))⟩
    rfl
  exact ⟨stub, hpath, hsub (List.mem_cons_self ..)⟩

theorem resumeAll_completed {uploads : List (PendingUpload × ResumeOutcome)} {r s : Resuming}
    (hall : resumeAll manifest clock uploads r = (s, true)) : r.completed ⊆ s.completed ∧
      ∀ upload result, (upload, .resumed result) ∈ uploads →
        ∃ c ∈ s.completed, c.1.path = upload.path := by
  induction uploads generalizing r with
  | nil =>
      cases hall
      exact ⟨fun _ => id, fun _ _ hmem => absurd hmem List.not_mem_nil⟩
  | cons first uploads ih =>
      obtain ⟨pending, outcome⟩ := first
      unfold resumeAll at hall
      cases outcome with
      | changed | gone =>
          obtain ⟨hkept, hlater⟩ := ih hall
          refine ⟨hkept, fun upload result hmem => ?_⟩
          rcases List.mem_cons.mp hmem with heq | hmem
          · cases heq
          · exact hlater upload result hmem
      | error => cases hall
      | resumed result =>
          obtain ⟨hkept, hlater⟩ := ih hall
          refine ⟨fun c hc => hkept (List.mem_append_left _ hc), fun upload result hmem => ?_⟩
          rcases List.mem_cons.mp hmem with heq | hmem
          · cases heq
            exact ⟨_, hkept (List.mem_append_right _ (List.mem_singleton_self _)), rfl⟩
          · exact hlater upload result hmem

theorem resumeUploads_touches
    (hresumed : resumeUploads manifest clock events.uploads = (es, some (resumedManifest, resumed)))
    {upload : PendingUpload} {result : UploadResult}
    (hmem : (upload, .resumed result) ∈ events.uploads) : recorded es upload.path ≠ none := by
  unfold resumeUploads at hresumed
  cases hall : resumeAll manifest clock events.uploads ⟨[], []⟩ with
  | mk r finished =>
      rw [hall] at hresumed
      cases finished with
      | false => cases hresumed
      | true =>
          obtain ⟨c, hc, hpath⟩ := (resumeAll_completed hall).2 upload result hmem
          simp only at hresumed
          split_ifs at hresumed with hcompleted
          · rw [hcompleted] at hc
            cases hc
          · cases hresumed
            have hconfirm : Effect.confirmSync c.1.path c.2.size c.2.mtimeNs c.2.contentHash ∈
                r.effects ++ r.logs clock.lamport := by
              refine List.mem_append_right _ ?_
              exact List.mem_cons_of_mem _ (List.mem_cons_of_mem _ (List.mem_map_of_mem hc))
            refine recorded_ne_none hconfirm ?_
            simp [Effect.records, hpath]

theorem passEffects_touches
    (hresumed : resumeUploads manifest (events.clock device (nextLamport remoteLamport
      device.lamport)) events.uploads = (es, some (resumedManifest, resumed)))
    (hfinishes : passFinishes plan manifest remoteLamport device events = true)
    (h : events.Transfers path) :
    recorded (passEffects plan manifest remoteLamport device events) path ≠ none := by
  rcases h with ⟨r, ⟨action, hmem, rfl⟩ | ⟨upload, hmem, rfl⟩⟩ | ⟨_, action, d, hmem, rfl, -⟩
  · rcases hmem with hmem | hmem
    · exact passEffects_joined hfinishes hmem (.inl ⟨r, rfl⟩)
    · exact passEffects_joined hfinishes hmem (.inr (.inl ⟨r, rfl⟩))
  · unfold passEffects
    simp only [hresumed]
    exact recorded_subset (List.subset_append_left ..) (resumeUploads_touches hresumed hmem)
  · exact passEffects_joined hfinishes hmem (.inr (.inr ⟨d, rfl⟩))

end Touched

/-- How planning goes on from agreement on a version of the path: an edit here goes up and one there
comes down, and a file deleted on either side is deleted on the other. -/
structure Baseline.PlansFrom (b : Baseline) (path : String) (hash : ContentHash) : Prop where
  upload : ∀ entries remote view other, localHash entries path = some other → other ≠ hash →
    Manifest.liveHash remote path = some hash → (planPath entries b remote view path).1 = some .upload
  download : ∀ entries remote view other, localHash entries path = some hash → other ≠ hash →
    Manifest.liveHash remote path = some other →
      (planPath entries b remote view path).1 = some .download
  deleteLocal : ∀ entries remote view, localHash entries path = some hash →
    Manifest.liveHash remote path = none → (planPath entries b remote view path).1 = some .deleteLocal
  deleteRemote : ∀ entries remote view, localHash entries path = none →
    view.placeholders[path]? = none → Manifest.liveHash remote path = some hash →
      (planPath entries b remote view path).1 = some .deleteRemote

theorem plansFrom_of_lastSynced {b : Baseline} {path : String} {hash : ContentHash}
    (h : b.lastSynced path = some hash) : b.PlansFrom path hash := by
  constructor
  · intro entries remote view other hlocal hother hlive
    rw [planPath_local hlocal, h, hlive]
    simp [classify, decideAction, hother]
  · intro entries remote view other hlocal hother hlive
    rw [planPath_local hlocal, h, hlive]
    simp [classify, decideAction, hother]
  · intro entries remote view hlocal hlive
    rw [planPath_local hlocal, h, hlive]
    simp [classify, decideAction]
  · intro entries remote view hlocal hstub hlive
    simp only [planPath, hlocal, hstub, hlive, h, classify, decideAction, Option.isSome_none,
      Bool.false_eq_true, if_false, if_true]
    split_ifs <;> rfl

namespace Round

/-- The file at the path has this content once the pass is over: it has been fetched, or sent, or was
there all the time. -/
structure LocalAfter (r : Round) (w : World) (path : String) (hash : ContentHash) : Prop where
  kept : ⟨path, .deleteLocal⟩ ∉ (r.passPlan w).plan.actions
  fetched : ∀ other, r.events.Downloaded path other → other = hash
  file : r.events.Downloaded path hash ∨
    (∃ result, r.events.Sent path result ∧ result.contentHash = hash) ∨
      localHash (r.entries w) path = some hash

/-- Both sides have come to the same version without a transfer of this device that it knows of. -/
def Unrecorded (r : Round) (w : World) (path : String) : Prop :=
  ¬ r.events.Transfers path ∧ ∃ found, localHash (r.entries w) path = some found ∧
    r.merged.manifest.liveHash path = some found ∧ r.lastSynced w path ≠ some found

variable {r : Round} {w : World} {path : String} {hash : ContentHash}

theorem recorded_untouched (hlocal : localHash (r.entries w) path = some hash)
    (hdelete : ⟨path, .deleteLocal⟩ ∉ (r.passPlan w).plan.actions)
    (hconflict : ⟨path, .conflict⟩ ∉ (r.passPlan w).plan.actions)
    (huntouched : ¬ r.events.Transfers path) : recorded (r.effects w) path = none := by
  have hplanned : ∀ kind, ⟨path, kind⟩ ∈ (r.passPlan w).plan.actions →
      kind ≠ .createPlaceholder ∧ kind ≠ .updatePlaceholder ∧ kind ≠ .deleteRemote := by
    intro kind hmem
    simp only [passPlan, planFrom, mem_sortActions] at hmem
    rcases foldl_addRelocation_actions hmem with hkind | hmem | ⟨-, hmem⟩
    · cases hkind
      simp
    · rcases planPath_local_kinds hlocal (mem_reconcileWith.mp hmem) with
        ⟨rfl, -⟩ | rfl | ⟨rfl, -⟩ | rfl <;> simp
    · rcases planPath_local_kinds hlocal (mem_reconcileWith.mp hmem) with
        ⟨hkind, -⟩ | hkind | ⟨hkind, -⟩ | hkind <;> cases hkind
  apply recorded_silent
  intro e he
  have horigin := passEffects_origin he
  cases e with
  | confirmSync p size mtimeNs other =>
      refine if_neg fun hp => huntouched ?_
      subst hp
      rcases horigin with ⟨result, hup, -⟩ | hdown
      · exact .inl ⟨result, hup.sent⟩
      · exact .inr ⟨other, hdown⟩
  | confirmPlaceholder p size other =>
      refine if_neg fun hp => ?_
      subst hp
      rcases horigin with hmem | hmem | ⟨action, result, hmem, hpath⟩
      · exact (hplanned _ hmem).1 rfl
      · exact (hplanned _ hmem).2.1 rfl
      · exact huntouched (.inl ⟨result, .inl ⟨action, .inr hmem, hpath⟩⟩)
  | removeRow p =>
      refine if_neg fun hp => ?_
      subst hp
      obtain ⟨kind, hmem, hkind⟩ := horigin
      simp only [List.mem_cons, List.not_mem_nil, or_false] at hkind
      rcases hkind with rfl | rfl | rfl
      · exact hdelete hmem
      · exact (hplanned _ hmem).2.2 rfl
      · exact hconflict hmem
  | _ => rfl

theorem Completes.lastSynced (h : r.Completes w) : (w.pass r).device.files.lastSynced path =
    (recorded (r.effects w) path).getD (r.lastSynced w path) := by
  have hall : (r.effects w).take r.reaches = r.effects w := List.take_of_length_le (by
    have hlength := h.2.1
    omega)
  unfold World.pass
  rw [if_pos h.1, if_pos h, hall]
  simp only [lastSynced_recordScan, lastSynced_runAll]
  rfl

theorem Completes.left_untouched (h : r.Completes w)
    (huntouched : ¬ r.events.Transfers path) (hlive : (r.left w).liveHash path = some hash) :
    r.merged.manifest.liveHash path = some hash := by
  have hleft := h.left r.events.joined path
  have hsame : r.joining r.events.joined = r := rfl
  have hlanded : landed r.events.joined path = none := by
    refine landed_eq_none.mpr fun j hj hpath => ?_
    obtain ⟨action, outcome⟩ := j
    cases outcome with
    | uploaded result => exact absurd (.inl ⟨result, .inl ⟨action, .inl hj, hpath⟩⟩) huntouched
    | relocated result => exact absurd (.inl ⟨result, .inl ⟨action, .inr hj, hpath⟩⟩) huntouched
    | failed | deferred | downloaded => rfl
  rw [hsame, hlive, hlanded, Option.none_or] at hleft
  split_ifs at hleft
  symm at hleft
  unfold Manifest.liveHash at hleft ⊢
  obtain ⟨entry, hentry, hhash⟩ := Option.bind_eq_some_iff.mp hleft
  rcases resumedManifest_entry hentry with hmerged | ⟨upload, result, hmem, hpath, -⟩
  · rw [hmerged]
    exact hhash
  · exact absurd (.inl ⟨result, .inr ⟨upload, hmem, hpath⟩⟩) huntouched

end Round

/-- A pass that completes leaves a file and the log at the same version of a path. Exactly if it has
not found them so, untold, that version is recorded as the one they agree on. -/
theorem agreement_recorded_iff {w : World} {r : Round} {path : String} {hash : ContentHash}
    (hcompletes : r.Completes w) (hconflict : ⟨path, .conflict⟩ ∉ (r.passPlan w).plan.actions)
    (hlocal : r.LocalAfter w path hash) (hlive : (r.left w).liveHash path = some hash) :
    ((w.pass r).device.files.lastSynced path = some hash ∧
      (w.pass r).device.files.PlansFrom path hash) ↔ ¬ r.Unrecorded w path := by
  have hsynced : (w.pass r).device.files.lastSynced path = some hash ↔ ¬ r.Unrecorded w path := by
    obtain ⟨es, hresumed⟩ := hcompletes.resumption
    rw [hcompletes.lastSynced]
    by_cases htransfers : r.events.Transfers path
    · have hrecorded : recorded (r.effects w) path ≠ none :=
        passEffects_touches hresumed hcompletes.2.2 htransfers
      obtain ⟨s, hs⟩ := Option.ne_none_iff_exists'.mp hrecorded
      have hsame : s = some hash := by
        rcases passEffects_records hresumed hcompletes.2.2 hlocal.kept hconflict hs hlive with
          hsame | ⟨other, hother, hdownloaded⟩
        · exact hsame
        · rw [hother, hlocal.fetched other hdownloaded]
      rw [hs, hsame]
      exact iff_of_true rfl fun hunrecorded => hunrecorded.1 htransfers
    · have hfound : localHash (r.entries w) path = some hash := by
        rcases hlocal.file with hdownloaded | ⟨result, hsent, -⟩ | hfound
        · exact absurd (.inr ⟨hash, hdownloaded⟩) htransfers
        · exact absurd (.inl ⟨result, hsent⟩) htransfers
        · exact hfound
      have hmerged := hcompletes.left_untouched htransfers hlive
      rw [Round.recorded_untouched hfound hlocal.kept hconflict htransfers, Option.getD_none]
      unfold Round.Unrecorded
      rw [hfound, hmerged]
      simp [htransfers]
  rw [← hsynced]
  exact and_iff_left_of_imp plansFrom_of_lastSynced

theorem agreement_recorded_fetched :
    (freshDevice.pass fetchingFirst).device.files.lastSynced "a" = some 10 ∧
      (freshDevice.pass fetchingFirst).device.files.PlansFrom "a" 10 := by
  have hdownloaded : fetchingFirst.events.Downloaded "a" 10 :=
    ⟨⟨"a", .download⟩, ⟨1, 0, 10⟩, List.mem_singleton_self _, rfl, rfl⟩
  have hlocal : fetchingFirst.LocalAfter freshDevice "a" 10 := by
    refine ⟨by decide +kernel, ?_, .inl hdownloaded⟩
    rintro other ⟨action, d, hmem, -, rfl⟩
    cases List.mem_singleton.mp hmem
    rfl
  have hiff := agreement_recorded_iff (by decide +kernel) (by decide +kernel) hlocal
    (by decide +kernel)
  exact hiff.mpr fun hunrecorded => hunrecorded.1 (.inr ⟨10, hdownloaded⟩)

/-- The pass is read to its end, and has nothing to transfer. -/
def readingFirst : Round := { readingAgain (.sample "a" "tablet" 1 10 none) with reaches := 9 }

/-- The file is written here as it was on the other device. -/
def copiedByHand : World :=
  { freshDevice with tree := StringMap.single "a" (realFile 10) }

/-- Both sides have the same content and no pass records it: the next edit of it is a conflict, and
the file comes back when it is deleted. -/
theorem agreement_unrecorded :
    readingFirst.Completes copiedByHand ∧
    (readingFirst.passPlan copiedByHand).plan.actions = [] ∧
    readingFirst.LocalAfter copiedByHand "a" 10 ∧
    (readingFirst.left copiedByHand).liveHash "a" = some 10 ∧
    (copiedByHand.pass readingFirst).device.files.lastSynced "a" = none ∧
    (readingFirst.passPlan { copiedByHand.pass readingFirst with
      tree := StringMap.single "a" ⟨⟨1, 5⟩, 11, true, none⟩ }).plan.actions =
        [⟨"a", .conflict⟩] ∧
    (readingFirst.passPlan { copiedByHand.pass readingFirst with tree := ∅ }).plan.actions =
      [⟨"a", .download⟩] := by
  refine ⟨?_, ?_, ?_, ?_, ?_, ?_, ?_⟩
  · decide +kernel
  · decide +kernel
  · refine ⟨by decide +kernel, ?_, .inr (.inr (by decide +kernel))⟩
    rintro other ⟨action, d, hmem, -⟩
    cases hmem
  · decide +kernel
  · decide +kernel
  · decide +kernel
  · decide +kernel

end FileMirror
