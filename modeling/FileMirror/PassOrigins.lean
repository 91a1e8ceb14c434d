import FileMirror.PassEffects

set_option autoImplicit false

namespace FileMirror

section Origin

variable (actions : List Action) (events : PassEvents) (deviceName : String)

def Placed (path : String) : Prop :=
  ⟨path, .createPlaceholder⟩ ∈ actions ∨ ⟨path, .updatePlaceholder⟩ ∈ actions ∨
    ∃ action r, (action, .relocated r) ∈ events.joined ∧ action.path = path

def PassEvents.Uploaded (events : PassEvents) (path : String) (r : UploadResult) : Prop :=
  (∃ action, (action, .uploaded r) ∈ events.joined ∧ action.path = path) ∨
    ∃ upload, (upload, .resumed r) ∈ events.uploads ∧ upload.path = path

def Effect.Origin : Effect → Prop
  | .confirmSync path _ _ hash =>
      (∃ r, events.Uploaded path r ∧ r.contentHash = hash) ∨
        ∃ action d, (action, .downloaded d) ∈ events.joined ∧ action.path = path ∧
          d.contentHash = hash
  | .writePlaceholder stub => Placed actions events stub.path
  | .confirmPlaceholder path _ _ => Placed actions events path
  | .removeRow path => ∃ kind, ⟨path, kind⟩ ∈ actions ∧
      kind ∈ [ActionKind.deleteLocal, .deleteRemote, .conflict]
  | .deleteLocal path => ⟨path, .deleteLocal⟩ ∈ actions
  | .setAside path target => ⟨path, .conflict⟩ ∈ actions ∧
      safeJoin (replaceName path (conflictName path (events.utc path) deviceName)) = some target
  | _ => True

/-- What has been done comes from somewhere, and so does what waits for the next flush. -/
structure Applying.Originates (a : Applying) : Prop where
  effects : ∀ e ∈ a.effects, e.Origin actions events deviceName
  ops : ∀ op ∈ a.batchOps, ∀ e ∈ op.effects, e.Origin actions events deviceName

end Origin

theorem PassEvents.Uploaded.sent {events : PassEvents} {path : String} {r : UploadResult}
    (h : events.Uploaded path r) : events.Sent path r :=
  h.imp_left fun ⟨action, hmem, hpath⟩ => ⟨action, .inl hmem, hpath⟩

namespace Applying.Originates

variable {actions : List Action} {events : PassEvents} {deviceName : String} {clock : PassClock}
  {plan : Plan} {a a' : Applying} {lamport : ℕ}

theorem flush (h : a.Originates actions events deviceName) :
    (flush lamport a).Originates actions events deviceName := by
  refine ⟨fun e he => ?_, fun op hop => absurd hop List.not_mem_nil⟩
  simp only [FileMirror.flush, List.mem_append, List.mem_flatMap] at he
  rcases he with he | he | ⟨op, hop, he⟩
  · exact h.effects e he
  · split_ifs at he
    · cases he
    · rw [List.mem_singleton.mp he]
      trivial
  · exact h.ops op hop e he

theorem flushIfFull (h : a.Originates actions events deviceName) :
    (flushIfFull lamport a).Originates actions events deviceName := by
  unfold FileMirror.flushIfFull
  split_ifs
  · exact h.flush
  · exact h

theorem extend (ops : List BaselineOp) (es : List Effect)
    (h : a.Originates actions events deviceName) (hops : ∀ op ∈ ops, ∀ e ∈ op.effects, e.Origin actions events deviceName)
    (hes : ∀ e ∈ es, e.Origin actions events deviceName)
    (hbatch : a'.batchOps = a.batchOps ++ ops) (heffects : a'.effects = a.effects ++ es) :
    a'.Originates actions events deviceName := by
  constructor
  · intro e he
    rw [heffects] at he
    exact (List.mem_append.mp he).elim (h.effects e) (hes e)
  · intro op hop
    rw [hbatch] at hop
    exact (List.mem_append.mp hop).elim (h.ops op) (hops op)

theorem joinOne {j : Action × Outcome} (hmem : j ∈ events.joined)
    (h : a.Originates actions events deviceName) :
    (joinOne plan clock a j).Originates actions events deviceName := by
  obtain ⟨action, outcome⟩ := j
  apply flushIfFull
  cases outcome with
  | failed error =>
      exact ⟨h.effects, h.ops⟩
  | deferred => exact h
  | uploaded r =>
      have hops : ∀ op ∈ [BaselineOp.confirm action.path r.size r.mtimeNs r.contentHash],
          ∀ e ∈ op.effects, e.Origin actions events deviceName := by
        simp only [List.mem_singleton, forall_eq, BaselineOp.effects]
        exact .inl ⟨r, .inl ⟨action, hmem, rfl⟩, rfl⟩
      exact h.extend _ [] hops (List.forall_mem_nil _) rfl (List.append_nil _).symm
  | relocated r =>
      have hplaced : Placed actions events action.path := .inr (.inr ⟨action, r, hmem, rfl⟩)
      refine h.extend [_] [] ?_ (List.forall_mem_nil _) rfl (List.append_nil _).symm
      rw [List.forall_mem_singleton]
      exact List.forall_mem_cons.mpr ⟨hplaced, List.forall_mem_singleton.mpr hplaced⟩
  | downloaded d =>
      refine h.extend (_ :: _) [] ?_ (List.forall_mem_nil _) rfl (List.append_nil _).symm
      rw [List.forall_mem_cons]
      constructor
      · simp only [BaselineOp.effects, List.mem_singleton, forall_eq]
        exact .inr ⟨action, d, hmem, rfl, rfl⟩
      · intro op hop e he
        split_ifs at hop
        · rw [List.mem_singleton.mp hop] at he
          rw [List.mem_singleton.mp he]
          trivial
        · cases hop

theorem joinAll {joined : List (Action × Outcome)} (hsub : joined ⊆ events.joined)
    (h : a.Originates actions events deviceName) :
    (joined.foldl (FileMirror.joinOne plan clock) a).Originates actions events deviceName := by
  induction joined generalizing a with
  | nil => exact h
  | cons j joined ih =>
      have hrest : joined ⊆ events.joined := fun _ hj => hsub (List.mem_cons_of_mem _ hj)
      exact ih hrest (h.joinOne (hsub (List.mem_cons_self ..)))

theorem actOne {action : Action} (hmem : action ∈ actions) (hutc : clock.utc = events.utc)
    (hname : clock.deviceName = deviceName) (h : a.Originates actions events deviceName)
    (hact : actOne clock a action = some a') : a'.Originates actions events deviceName := by
  obtain ⟨path, kind⟩ := action
  unfold FileMirror.actOne at hact
  obtain ⟨acted, hacted, rfl⟩ := Option.map_eq_some_iff.mp hact
  apply flushIfFull
  have hplaced : kind = .createPlaceholder ∨ kind = .updatePlaceholder →
      Placed actions events path := by
    rintro (rfl | rfl)
    · exact .inl hmem
    · exact .inr (.inl hmem)
  have hplaces : ∀ stub hash, stub.path = path → Placed actions events path →
      ∀ op ∈ [BaselineOp.placeholder stub hash], ∀ e ∈ op.effects,
        e.Origin actions events deviceName := by
    intro stub hash hpath hplaced op hop e he
    rw [List.mem_singleton.mp hop] at he
    simp only [BaselineOp.effects, List.mem_cons, List.not_mem_nil, or_false] at he
    rcases he with rfl | rfl
    · exact (hpath ▸ hplaced : Placed actions events stub.path)
    · exact (hpath ▸ hplaced : Placed actions events stub.path)
  have hremoves : kind ∈ [ActionKind.deleteLocal, .deleteRemote, .conflict] →
      Effect.Origin actions events deviceName (.removeRow path) := fun hkind => ⟨kind, hmem, hkind⟩
  cases kind with
  | createPlaceholder =>
      simp only at hacted
      split_ifs at hacted
      · cases hacted
        exact h
      · obtain ⟨entry, -, rfl⟩ := Option.map_eq_some_iff.mp hacted
        exact h.extend _ [] (hplaces _ _ rfl (hplaced (.inl rfl))) (List.forall_mem_nil _) rfl
          (List.append_nil _).symm
  | updatePlaceholder =>
      simp only at hacted
      split_ifs at hacted
      · cases hacted
        exact h
      · obtain ⟨entry, -, rfl⟩ := Option.map_eq_some_iff.mp hacted
        exact h.extend _ [] (hplaces _ _ rfl (hplaced (.inr rfl))) (List.forall_mem_nil _) rfl
          (List.append_nil _).symm
  | deleteLocal =>
      cases hacted
      refine h.extend [.remove path] [.deleteLocal path] ?_ ?_ rfl rfl
      · exact List.forall_mem_singleton.mpr (List.forall_mem_singleton.mpr (hremoves (by simp)))
      · exact List.forall_mem_singleton.mpr hmem
  | deleteRemote =>
      simp only at hacted
      split_ifs at hacted
      · cases hacted
        exact h
      · cases hacted
        refine h.extend [.remove path] [] ?_ (List.forall_mem_nil _) rfl (List.append_nil _).symm
        exact List.forall_mem_singleton.mpr (List.forall_mem_singleton.mpr (hremoves (by simp)))
  | conflict =>
      obtain ⟨target, htarget, rfl⟩ := Option.map_eq_some_iff.mp hacted
      rw [hutc, hname] at htarget
      refine h.extend [] [_, _] (List.forall_mem_nil _) ?_ (List.append_nil _).symm rfl
      exact List.forall_mem_cons.mpr ⟨⟨hmem, htarget⟩,
        List.forall_mem_singleton.mpr (hremoves (by simp))⟩
  | download | hydrate | relocate | upload =>
      cases hacted
      exact h

theorem actAll {some : List Action} (hsub : some ⊆ actions) (hutc : clock.utc = events.utc)
    (hname : clock.deviceName = deviceName) (h : a.Originates actions events deviceName) :
    (actAll clock some a).1.Originates actions events deviceName := by
  induction some generalizing a with
  | nil => exact h
  | cons action some ih =>
      have hrest : some ⊆ actions := fun _ hj => hsub (List.mem_cons_of_mem _ hj)
      unfold FileMirror.actAll
      cases hact : FileMirror.actOne clock a action with
      | none => exact h
      | some b => exact ih hrest (h.actOne (hsub (List.mem_cons_self ..)) hutc hname hact)

theorem apply {m : Manifest} (hsub : plan.actions ⊆ actions) (hutc : clock.utc = events.utc)
    (hname : clock.deviceName = deviceName) :
    (apply plan events.joined m clock).1.Originates actions events deviceName := by
  have hstart : Applying.Originates actions events deviceName ⟨m, [], [], 0, [], [], []⟩ :=
    ⟨List.forall_mem_nil _, List.forall_mem_nil _⟩
  have hjoined : (events.joined.foldl (FileMirror.joinOne plan clock)
      ⟨m, [], [], 0, [], [], []⟩).Originates actions events deviceName :=
    hstart.joinAll fun _ => id
  have hacted := hjoined.actAll hsub hutc hname
  unfold FileMirror.apply
  dsimp only
  split_ifs
  · cases hall : FileMirror.actAll clock plan.actions
        (events.joined.foldl (FileMirror.joinOne plan clock) ⟨m, [], [], 0, [], [], []⟩) with
    | mk b ended =>
        rw [hall] at hacted
        cases ended with
        | false => exact hacted
        | true =>
            have hflushed : (FileMirror.flush clock.lamport b).Originates actions events
                deviceName := hacted.flush
            refine ⟨fun e he => ?_, hflushed.ops⟩
            rcases List.mem_append.mp he with he | he
            · exact hflushed.effects e he
            · rw [List.mem_singleton.mp he]
              trivial
  · exact hstart

end Applying.Originates

section Pass

variable {plan : Plan} {manifest : Manifest} {remoteLamport : ℕ} {device : DeviceState}
  {events : PassEvents} {clock : PassClock}

theorem Resumed.origin {r : Resuming} {e : Effect} (h : Resumed manifest events clock r)
    (he : e ∈ r.effects) : e.Origin plan.actions events device.deviceName := by
  obtain ⟨path, rfl⟩ := h.effects e he
  trivial

theorem Resumed.origin_logs {r : Resuming} {e : Effect} (h : Resumed manifest events clock r)
    {lamport : ℕ} (he : e ∈ r.logs lamport) :
    e.Origin plan.actions events device.deviceName := by
  simp only [Resuming.logs, List.mem_cons, List.mem_map] at he
  rcases he with rfl | rfl | ⟨c, hc, rfl⟩
  · trivial
  · trivial
  · obtain ⟨upload, hupload, hdelta⟩ := h.completed c hc
    have hpath : c.1.path = upload.path := by rw [hdelta, newDelta]
    exact .inl ⟨c.2, .inr ⟨upload, hupload, hpath.symm⟩, rfl⟩

theorem apply_origin {resumed : List String} {m : Manifest} {lamport : ℕ} {e : Effect}
    (he : e ∈ (apply (dropResumed plan resumed) events.joined m
      (events.clock device lamport)).1.effects) :
    e.Origin plan.actions events device.deviceName := by
  have hdrop : (dropResumed plan resumed).actions ⊆ plan.actions := List.filter_subset_self ..
  have happlied : Applying.Originates plan.actions events device.deviceName
      (apply (dropResumed plan resumed) events.joined m (events.clock device lamport)).1 :=
    Applying.Originates.apply hdrop rfl rfl
  exact happlied.effects e he

theorem passEffects_origin {e : Effect}
    (he : e ∈ passEffects plan manifest remoteLamport device events) :
    e.Origin plan.actions events device.deviceName := by
  have hstart : Resumed manifest events
      (events.clock device (nextLamport remoteLamport device.lamport)) ⟨[], []⟩ :=
    ⟨fun _ he => absurd he List.not_mem_nil, fun _ hc => absurd hc List.not_mem_nil⟩
  have hresumed := resumeAll_resumed hstart (fun _ => id : events.uploads ⊆ events.uploads)
  cases hall : resumeAll manifest
      (events.clock device (nextLamport remoteLamport device.lamport)) events.uploads ⟨[], []⟩ with
  | mk r finished =>
      rw [hall] at hresumed
      cases finished with
      | false =>
          rw [passEffects_of_error hall] at he
          exact hresumed.origin he
      | true =>
          by_cases hcompleted : r.completed = []
          · rw [passEffects_of_none hall hcompleted] at he
            rcases List.mem_append.mp he with he | he
            · exact hresumed.origin he
            · exact apply_origin he
          · rw [passEffects_of_resumed rfl hall hcompleted] at he
            rcases List.mem_append.mp he with he | he
            · exact (List.mem_append.mp he).elim hresumed.origin hresumed.origin_logs
            · exact apply_origin he

end Pass

end FileMirror
