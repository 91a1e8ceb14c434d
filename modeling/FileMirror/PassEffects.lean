import FileMirror.Pass

set_option autoImplicit false

namespace FileMirror

open WriteAhead

def Effect.writes : Effect → List DeltaEntry
  | .logDelta _ _ deltas => deltas
  | _ => []

def Effect.logKey : Effect → Option (ℕ × ℕ)
  | .logDelta lamport seq _ => some (lamport, seq)
  | _ => none

/-- A live version of `path` with the content `hash`. -/
def DeltaEntry.IsVersion (d : DeltaEntry) (path : String) (hash : ContentHash) : Prop :=
  d.path = path ∧ d.plaintextHash = hash ∧ d.deleted = false

/-- The pass sent the bytes of `path`: uploaded, relocated or resumed. -/
def PassEvents.Sent (events : PassEvents) (path : String) (r : UploadResult) : Prop :=
  (∃ action, ((action, .uploaded r) ∈ events.joined ∨ (action, .relocated r) ∈ events.joined) ∧
    action.path = path) ∨ ∃ upload, (upload, .resumed r) ∈ events.uploads ∧ upload.path = path

def Outcome.sends (path : String) : Outcome → List String
  | .uploaded _ | .relocated _ => [path]
  | _ => []

def ResumeOutcome.sends (path : String) : ResumeOutcome → List String
  | .resumed _ => [path]
  | _ => []

def PassEvents.resumes (events : PassEvents) : List String :=
  events.uploads.flatMap fun upload => upload.2.sends upload.1.path

def PassEvents.sends (events : PassEvents) : List String :=
  events.resumes ++ events.joined.flatMap fun joined => joined.2.sends joined.1.path

section Needs

variable (plan : Plan) (manifest : Manifest) (events : PassEvents)

def Fetched (path : String) (hash : ContentHash) : Prop :=
  (∃ action r, (action, .downloaded r) ∈ events.joined ∧ action.path = path ∧
    r.contentHash = hash) ∨
  (⟨path, .createPlaceholder⟩ ∈ plan.actions ∨ ⟨path, .updatePlaceholder⟩ ∈ plan.actions) ∧
    ∃ e, manifest[path]? = some e ∧ e.plaintextHash = hash

def Effect.needs (logged : List DeltaEntry) : Effect → Prop
  | .confirmSync path _ _ hash | .confirmPlaceholder path _ hash =>
      Fetched plan manifest events path hash ∨ ∃ d ∈ logged, d.IsVersion path hash
  | .removeRow path =>
      ⟨path, .deleteLocal⟩ ∈ plan.actions ∨ ⟨path, .conflict⟩ ∈ plan.actions ∨
        ⟨path, .deleteRemote⟩ ∈ plan.actions ∧
          (manifest[path]? = none ∨ ∃ d ∈ logged, d.path = path ∧ d.deleted = true)
  | _ => True

structure Logged (lamport : ℕ) (deviceId : String) (logged : List DeltaEntry) (d : DeltaEntry) :
    Prop where
  lamport_le : lamport ≤ d.lamport
  device : d.deviceId = deviceId
  tombstone : d.deleted = true → ⟨d.path, .deleteRemote⟩ ∈ plan.actions
  sent : d.deleted = false → ∃ r, events.Sent d.path r ∧ r.contentHash = d.plaintextHash
  base : d.deleted = false → ∀ hash, d.baseHash = some hash →
    (∃ e, manifest[d.path]? = some e ∧ e.plaintextHash = hash) ∨ 2 ≤ events.sends.count d.path
  absent : d.deleted = false → d.baseHash = none →
    manifest[d.path]? = none ∨ ∃ t ∈ logged, t.path = d.path ∧ t.deleted = true

end Needs

section Monotone

variable {plan : Plan} {manifest : Manifest} {events : PassEvents} {lamport : ℕ}
  {deviceId : String} {before after : List DeltaEntry} {e : Effect} {d : DeltaEntry}

theorem Effect.needs_mono (hsub : before ⊆ after) (h : e.needs plan manifest events before) :
    e.needs plan manifest events after := by
  cases e with
  | confirmSync path size mtimeNs hash => exact h.imp_right fun ⟨d, hd, hv⟩ => ⟨d, hsub hd, hv⟩
  | confirmPlaceholder path size hash => exact h.imp_right fun ⟨d, hd, hv⟩ => ⟨d, hsub hd, hv⟩
  | removeRow path =>
      refine h.imp_right (Or.imp_right fun ⟨haction, hrow⟩ => ⟨haction, ?_⟩)
      exact hrow.imp_right fun ⟨d, hd, hv⟩ => ⟨d, hsub hd, hv⟩
  | _ => trivial

theorem Logged.mono (h : Logged plan manifest events lamport deviceId before d)
    (hsub : before ⊆ after) : Logged plan manifest events lamport deviceId after d where
  lamport_le := h.lamport_le
  device := h.device
  tombstone := h.tombstone
  sent := h.sent
  base := h.base
  absent := fun hlive hnone =>
    (h.absent hlive hnone).imp_right fun ⟨t, ht, htomb⟩ => ⟨t, hsub ht, htomb⟩

end Monotone

def Applying.known (before : List DeltaEntry) (a : Applying) : List DeltaEntry :=
  before ++ written Effect.writes a.effects ++ a.deltas

/-- The state of `apply` between two steps, when the log held `before` of this pass at the start
and the bytes of `sent` have been sent. -/
structure Applied (plan : Plan) (manifest : Manifest) (events : PassEvents) (clock : PassClock)
    (least : ℕ) (before : List DeltaEntry) (sent : List String) (a : Applying) : Prop where
  justified : Justified Effect.writes (Effect.needs plan manifest events) before a.effects
  ops : ∀ op ∈ a.batchOps, ∀ e ∈ op.effects, e.needs plan manifest events (a.known before)
  keys : a.effects.filterMap Effect.logKey =
    (List.range a.flushSeq).map fun seq => (clock.lamport, seq)
  entries : ∀ p e, a.manifest[p]? = some e →
    manifest[p]? = some e ∨ e ∈ a.known before ∧ e.path = p ∧ e.deleted = false ∧ p ∈ sent
  tombs : ∀ p, a.manifest[p]? = none →
    manifest[p]? = none ∨ ∃ d ∈ a.known before, d.path = p ∧ d.deleted = true
  logged : ∀ d ∈ a.known before,
    Logged plan manifest events least clock.deviceId (a.known before) d

namespace Applied

variable {plan : Plan} {manifest : Manifest} {events : PassEvents} {clock : PassClock}
  {least : ℕ} {before : List DeltaEntry} {sent : List String} {a : Applying}

theorem effects_writes (op : BaselineOp) : ∀ e ∈ op.effects, e.writes = [] ∧ e.logKey = none := by
  cases op <;> simp [BaselineOp.effects, Effect.writes, Effect.logKey]

theorem written_silent {es : List Effect} (h : ∀ e ∈ es, e.writes = []) :
    written Effect.writes es = [] := by
  simpa [written, List.flatMap_eq_nil_iff] using h

theorem logKeys_silent {es : List Effect} (h : ∀ e ∈ es, e.logKey = none) :
    es.filterMap Effect.logKey = [] := by
  simpa [List.filterMap_eq_nil_iff] using h

theorem extend {sent' : List String} {m : Manifest} {ds : List DeltaEntry} {ops : List BaselineOp} {es : List Effect}
    {pinned : List String} {failed : List (String × String)} (hsent : sent ⊆ sent')
    (h : Applied plan manifest events clock least before sent a)
    (hsilent : ∀ e ∈ es, e.writes = [] ∧ e.logKey = none)
    (hes : ∀ e ∈ es, e.needs plan manifest events (before ++ written Effect.writes a.effects))
    (hops : ∀ op ∈ ops, ∀ e ∈ op.effects, e.needs plan manifest events (a.known before ++ ds))
    (hentries : ∀ p e, m[p]? = some e →
      a.manifest[p]? = some e ∨ e ∈ ds ∧ e.path = p ∧ e.deleted = false ∧ p ∈ sent')
    (htombs : ∀ p, m[p]? = none →
      a.manifest[p]? = none ∨ ∃ d ∈ ds, d.path = p ∧ d.deleted = true)
    (hlogged : ∀ d ∈ ds, Logged plan manifest events least clock.deviceId (a.known before) d) :
    Applied plan manifest events clock least before sent'
      { a with manifest := m, deltas := a.deltas ++ ds, batchOps := a.batchOps ++ ops
               effects := a.effects ++ es, pinnedSources := pinned, failed } := by
  have hwritten : written Effect.writes (a.effects ++ es) = written Effect.writes a.effects := by
    rw [written_append, written_silent fun e he => (hsilent e he).1, List.append_nil]
  have hknown : before ++ written Effect.writes (a.effects ++ es) ++ (a.deltas ++ ds) =
      a.known before ++ ds := by
    rw [hwritten, Applying.known, List.append_assoc, List.append_assoc, List.append_assoc]
  have hleft : a.known before ⊆ a.known before ++ ds := List.subset_append_left ..
  refine ⟨?_, ?_, ?_, ?_, ?_, ?_⟩
  · rw [justified_append]
    exact ⟨h.justified, justified_of_forall Effect.needs_mono hes⟩
  · intro op hop e he
    change e.needs plan manifest events (before ++ written Effect.writes (a.effects ++ es) ++ _)
    rw [hknown]
    rcases List.mem_append.mp hop with hop | hop
    · exact Effect.needs_mono hleft (h.ops op hop e he)
    · exact hops op hop e he
  · change (a.effects ++ es).filterMap Effect.logKey = _
    rw [List.filterMap_append, logKeys_silent fun e he => (hsilent e he).2, List.append_nil]
    exact h.keys
  · intro p e he
    change _ ∨ e ∈ before ++ written Effect.writes (a.effects ++ es) ++ _ ∧ _
    rw [hknown]
    rcases hentries p e he with he | ⟨hmem, hversion⟩
    · refine (h.entries p e he).imp_right fun ⟨hmem, hpath, hlive, hp⟩ => ?_
      exact ⟨hleft hmem, hpath, hlive, hsent hp⟩
    · exact .inr ⟨List.mem_append_right _ hmem, hversion⟩
  · intro p hp
    change _ ∨ ∃ d ∈ before ++ written Effect.writes (a.effects ++ es) ++ _, _
    rw [hknown]
    rcases htombs p hp with hp | ⟨d, hd, htomb⟩
    · exact (h.tombs p hp).imp_right fun ⟨d, hd, htomb⟩ => ⟨d, hleft hd, htomb⟩
    · exact .inr ⟨d, List.mem_append_right _ hd, htomb⟩
  · intro d hd
    change d ∈ before ++ written Effect.writes (a.effects ++ es) ++ _ at hd
    change Logged plan manifest events least clock.deviceId
      (before ++ written Effect.writes (a.effects ++ es) ++ _) d
    rw [hknown] at hd ⊢
    rcases List.mem_append.mp hd with hd | hd
    · exact (h.logged d hd).mono hleft
    · exact (hlogged d hd).mono hleft

theorem flush (h : Applied plan manifest events clock least before sent a) :
    Applied plan manifest events clock least before sent (flush clock.lamport a) := by
  have hsilent : ∀ e ∈ a.batchOps.flatMap BaselineOp.effects, e.writes = [] ∧ e.logKey = none := by
    intro e he
    obtain ⟨op, -, he⟩ := List.mem_flatMap.mp he
    exact effects_writes op e he
  let logged := if a.deltas = [] then [] else [Effect.logDelta clock.lamport a.flushSeq a.deltas]
  have hlogged : written Effect.writes logged = a.deltas := by
    by_cases hd : a.deltas = []
    · simp [logged, hd, written]
    · simp [logged, hd, written, Effect.writes]
  have hknown : (FileMirror.flush clock.lamport a).known before = a.known before := by
    change before ++ written Effect.writes (a.effects ++ (logged ++ _)) ++ [] = _
    rw [written_append, written_append, written_silent fun e he => (hsilent e he).1, hlogged,
      Applying.known]
    simp only [List.append_nil, List.append_assoc]
  refine ⟨?_, fun _ hop => absurd hop List.not_mem_nil, ?_, ?_, ?_, ?_⟩
  · refine Justified.flush ?_ h.justified hlogged (fun e he => ?_) fun e he => ?_
    · exact Effect.needs_mono
    · by_cases hd : a.deltas = []
      · simp [hd] at he
      · simp only [hd, if_false, List.mem_singleton] at he
        subst he
        trivial
    · obtain ⟨op, hop, he⟩ := List.mem_flatMap.mp he
      exact h.ops op hop e he
  · change (a.effects ++ (logged ++ a.batchOps.flatMap BaselineOp.effects)).filterMap
      Effect.logKey = _
    rw [List.filterMap_append, List.filterMap_append, logKeys_silent fun e he => (hsilent e he).2,
      h.keys, List.append_nil]
    by_cases hd : a.deltas = []
    · simp [logged, hd, FileMirror.flush]
    · simp [logged, hd, FileMirror.flush, List.range_succ, Effect.logKey]
  · rw [hknown]
    exact h.entries
  · rw [hknown]
    exact h.tombs
  · rw [hknown]
    exact h.logged

theorem flushIfFull (h : Applied plan manifest events clock least before sent a) :
    Applied plan manifest events clock least before sent (flushIfFull clock.lamport a) := by
  unfold FileMirror.flushIfFull
  split_ifs
  · exact h.flush
  · exact h

theorem newDelta_logged {r : UploadResult} {path : String} (hleast : least ≤ clock.lamport)
    (h : Applied plan manifest events clock least before sent a) (hsent : events.Sent path r)
    (hinto : (sent ++ [path]) <+: events.sends) :
    Logged plan manifest events least clock.deviceId (a.known before)
      (newDelta a.manifest clock path r) where
  lamport_le := hleast
  device := rfl
  tombstone := fun hdeleted => by cases hdeleted
  sent := fun _ => ⟨r, hsent, rfl⟩
  base := by
    intro _ hash hhash
    obtain ⟨e, he, rfl⟩ := Option.map_eq_some_iff.mp hhash
    rcases h.entries path e he with hfrom | ⟨-, -, -, hmem⟩
    · exact .inl ⟨e, hfrom, rfl⟩
    · have hcount : 1 ≤ sent.count path := List.count_pos_iff.mpr hmem
      have hle := hinto.sublist.count_le path
      rw [List.count_append, List.count_singleton_self] at hle
      exact .inr (by change 2 ≤ events.sends.count path; omega)
  absent := fun _ hnone => h.tombs path (Option.map_eq_none_iff.mp hnone)

theorem send {r : UploadResult} {path : String} {op : BaselineOp}
    (h : Applied plan manifest events clock least before sent a) (hleast : least ≤ clock.lamport)
    (hsent : events.Sent path r) (hinto : (sent ++ [path]) <+: events.sends)
    (hop : ∀ known, (∃ d ∈ known, d.IsVersion path r.contentHash) →
      ∀ e ∈ op.effects, e.needs plan manifest events known) :
    Applied plan manifest events clock least before (sent ++ [path])
      { a with manifest := a.manifest.insert path (newDelta a.manifest clock path r)
               deltas := a.deltas ++ [newDelta a.manifest clock path r]
               batchOps := a.batchOps ++ [op] } := by
  let entry := newDelta a.manifest clock path r
  have hversion : entry.IsVersion path r.contentHash := ⟨rfl, rfl, rfl⟩
  have hextended : Applied plan manifest events clock least before (sent ++ [path])
      { a with manifest := a.manifest.insert path entry, deltas := a.deltas ++ [entry]
               batchOps := a.batchOps ++ [op], effects := a.effects ++ [] } := by
    refine h.extend (List.subset_append_left ..) (fun _ he => by cases he) (fun _ he => by cases he) ?_ ?_ ?_ ?_
    · intro op' hop'
      rw [List.mem_singleton.mp hop']
      exact hop _ ⟨entry, by simp, hversion⟩
    · intro p e he
      rw [StringMap.getElem?_insert] at he
      split_ifs at he with hp
      · cases he
        exact .inr ⟨List.mem_singleton_self _, hp, rfl, by simp [hp]⟩
      · exact .inl he
    · intro p hp
      rw [StringMap.getElem?_insert] at hp
      split_ifs at hp
      exact .inl hp
    · intro d hd
      rw [List.mem_singleton.mp hd]
      exact h.newDelta_logged hleast hsent hinto
  simpa only [List.append_nil] using hextended

theorem operate {ops : List BaselineOp} (h : Applied plan manifest events clock least before sent a)
    (hops : ∀ op ∈ ops, ∀ e ∈ op.effects, e.needs plan manifest events (a.known before)) :
    Applied plan manifest events clock least before sent
      { a with batchOps := a.batchOps ++ ops } := by
  have hextended : Applied plan manifest events clock least before sent
      { a with deltas := a.deltas ++ [], batchOps := a.batchOps ++ ops
               effects := a.effects ++ [] } := by
    refine h.extend (List.Subset.refl _) (fun _ he => by cases he) (fun _ he => by cases he) ?_ (fun _ _ => .inl)
      (fun _ => .inl) (fun _ hd => by cases hd)
    rw [List.append_nil]
    exact hops
  simpa only [List.append_nil] using hextended

theorem perform {ops : List BaselineOp} {es : List Effect}
    (h : Applied plan manifest events clock least before sent a)
    (hsilent : ∀ e ∈ es, e.writes = [] ∧ e.logKey = none)
    (hes : ∀ e ∈ es, e.needs plan manifest events (before ++ written Effect.writes a.effects))
    (hops : ∀ op ∈ ops, ∀ e ∈ op.effects, e.needs plan manifest events (a.known before)) :
    Applied plan manifest events clock least before sent
      { a with batchOps := a.batchOps ++ ops, effects := a.effects ++ es } := by
  have hextended : Applied plan manifest events clock least before sent
      { a with deltas := a.deltas ++ [], batchOps := a.batchOps ++ ops
               effects := a.effects ++ es } := by
    refine h.extend (List.Subset.refl _) hsilent hes ?_ (fun _ _ => .inl) (fun _ => .inl) (fun _ hd => by cases hd)
    rw [List.append_nil]
    exact hops
  simpa only [List.append_nil] using hextended

theorem joinOne {whole : Plan} {joined : Action × Outcome}
    (h : Applied plan manifest events clock least before sent a) (hleast : least ≤ clock.lamport)
    (hjoined : joined ∈ events.joined)
    (hinto : (sent ++ joined.2.sends joined.1.path) <+: events.sends) :
    Applied plan manifest events clock least before (sent ++ joined.2.sends joined.1.path)
      (joinOne whole clock a joined) := by
  obtain ⟨action, outcome⟩ := joined
  refine Applied.flushIfFull ?_
  cases outcome with
  | failed error =>
      change Applied plan manifest events clock least before (sent ++ []) _
      rw [List.append_nil]
      exact ⟨h.justified, h.ops, h.keys, h.entries, h.tombs, h.logged⟩
  | deferred =>
      change Applied plan manifest events clock least before (sent ++ []) _
      rw [List.append_nil]
      exact h
  | uploaded r =>
      refine h.send hleast (.inl ⟨action, .inl hjoined, rfl⟩) hinto fun known hversion e he => ?_
      simp only [BaselineOp.effects, List.mem_singleton] at he
      subst he
      exact .inr hversion
  | relocated r =>
      refine h.send hleast (.inl ⟨action, .inr hjoined, rfl⟩) hinto fun known hversion e he => ?_
      simp only [BaselineOp.effects, List.mem_cons, List.not_mem_nil, or_false] at he
      rcases he with rfl | rfl
      · trivial
      · exact .inr hversion
  | downloaded r =>
      change Applied plan manifest events clock least before (sent ++ []) _
      rw [List.append_nil]
      refine h.operate fun op hop e he => ?_
      rcases List.mem_cons.mp hop with rfl | hop
      · simp only [BaselineOp.effects, List.mem_singleton] at he
        subst he
        exact .inl (.inl ⟨action, r, hjoined, rfl, rfl⟩)
      · split_ifs at hop
        · rw [List.mem_singleton.mp hop] at he
          simp only [BaselineOp.effects, List.mem_singleton] at he
          subst he
          trivial
        · cases hop

theorem joinAll {whole : Plan} {joined : List (Action × Outcome)} {sent : List String}
    {a : Applying} (h : Applied plan manifest events clock least before sent a)
    (hleast : least ≤ clock.lamport) (hjoined : joined ⊆ events.joined)
    (hsends : sent ++ joined.flatMap (fun j => j.2.sends j.1.path) = events.sends) :
    Applied plan manifest events clock least before events.sends
      (joined.foldl (FileMirror.joinOne whole clock) a) := by
  induction joined generalizing a sent with
  | nil =>
      rw [List.flatMap_nil, List.append_nil] at hsends
      exact hsends ▸ h
  | cons j joined ih =>
      rw [List.flatMap_cons, ← List.append_assoc] at hsends
      refine ih (h.joinOne hleast (hjoined (List.mem_cons_self ..)) ⟨_, hsends⟩)
        (fun k hk => hjoined (List.mem_cons_of_mem _ hk)) hsends

theorem tombstone_logged {path : String} {entry : DeltaEntry} (hleast : least ≤ clock.lamport)
    (hplan : ⟨path, .deleteRemote⟩ ∈ plan.actions) (logged : List DeltaEntry) :
    Logged plan manifest events least clock.deviceId logged (tombstone clock path entry) where
  lamport_le := hleast
  device := rfl
  tombstone := fun _ => hplan
  sent := fun hlive => by cases hlive
  base := fun hlive => by cases hlive
  absent := fun hlive => by cases hlive

theorem deleteRemote {path : String} (h : Applied plan manifest events clock least before sent a)
    (hleast : least ≤ clock.lamport) (hplan : ⟨path, .deleteRemote⟩ ∈ plan.actions) :
    Applied plan manifest events clock least before sent
      { a with deltas := a.deltas ++ (a.manifest[path]?.map (tombstone clock path)).toList
               manifest := a.manifest.erase path
               batchOps := a.batchOps ++ [.remove path] } := by
  let ds := (a.manifest[path]?.map (tombstone clock path)).toList
  have hds : ∀ d ∈ ds, ∃ entry, a.manifest[path]? = some entry ∧ d = tombstone clock path entry := by
    intro d hd
    simp only [ds, Option.mem_toList, Option.map_eq_some_iff] at hd
    obtain ⟨entry, hentry, rfl⟩ := hd
    exact ⟨entry, hentry, rfl⟩
  have htomb : a.manifest[path]? = none ∨ ∃ d ∈ ds, d.path = path ∧ d.deleted = true := by
    cases hentry : a.manifest[path]? with
    | none => exact .inl rfl
    | some entry => exact .inr ⟨tombstone clock path entry, by simp [ds, hentry], rfl, rfl⟩
  have hextended : Applied plan manifest events clock least before sent
      { a with deltas := a.deltas ++ ds, manifest := a.manifest.erase path
               batchOps := a.batchOps ++ [.remove path], effects := a.effects ++ [] } := by
    refine h.extend (List.Subset.refl _) (fun _ he => by cases he) (fun _ he => by cases he) ?_ ?_ ?_ ?_
    · intro op hop e he
      rw [List.mem_singleton.mp hop] at he
      simp only [BaselineOp.effects, List.mem_singleton] at he
      subst he
      refine .inr (.inr ⟨hplan, ?_⟩)
      rcases htomb with hnone | ⟨d, hd, hversion⟩
      · refine (h.tombs path hnone).imp_right fun ⟨d, hd, hversion⟩ => ⟨d, ?_, hversion⟩
        exact List.mem_append_left _ hd
      · exact .inr ⟨d, List.mem_append_right _ hd, hversion⟩
    · intro p e he
      rw [StringMap.getElem?_erase] at he
      split_ifs at he
      exact .inl he
    · intro p hp
      rw [StringMap.getElem?_erase] at hp
      split_ifs at hp with heq
      · subst heq
        exact htomb
      · exact .inl hp
    · intro d hd
      obtain ⟨entry, -, rfl⟩ := hds d hd
      exact tombstone_logged hleast hplan _
  simpa only [List.append_nil] using hextended

theorem actOne {action : Action} {a' : Applying}
    (h : Applied plan manifest events clock least before sent a) (hleast : least ≤ clock.lamport)
    (hplan : action ∈ plan.actions) (hact : actOne clock a action = some a') :
    Applied plan manifest events clock least before sent a' := by
  obtain ⟨path, kind⟩ := action
  unfold FileMirror.actOne at hact
  obtain ⟨acted, hacted, rfl⟩ := Option.map_eq_some_iff.mp hact
  refine Applied.flushIfFull ?_
  have placeholder : (⟨path, .createPlaceholder⟩ ∈ plan.actions ∨
      ⟨path, .updatePlaceholder⟩ ∈ plan.actions) →
      (if path ∈ a.pinnedSources then some a
        else a.manifest[path]?.map fun entry =>
          let stub := StubMeta.new path entry.size entry.plaintextHash entry.objectKey
            (clock.unix path) (stubMtime entry)
          { a with batchOps := a.batchOps ++ [.placeholder stub entry.plaintextHash] }) =
        some acted → Applied plan manifest events clock least before sent acted := by
    intro hkind hplaceholder
    split_ifs at hplaceholder
    · cases hplaceholder
      exact h
    · obtain ⟨entry, hentry, rfl⟩ := Option.map_eq_some_iff.mp hplaceholder
      refine h.operate fun op hop e he => ?_
      rw [List.mem_singleton.mp hop] at he
      simp only [BaselineOp.effects, List.mem_cons, List.not_mem_nil, or_false] at he
      rcases he with rfl | rfl
      · trivial
      · rcases h.entries path entry hentry with hfrom | ⟨hmem, hpath, hlive, -⟩
        · exact .inl (.inr ⟨hkind, entry, hfrom, rfl⟩)
        · exact .inr ⟨entry, hmem, hpath, rfl, hlive⟩
  cases kind with
  | createPlaceholder => exact placeholder (.inl hplan) hacted
  | updatePlaceholder => exact placeholder (.inr hplan) hacted
  | deleteLocal =>
      cases hacted
      refine h.perform (by simp [Effect.writes, Effect.logKey]) (fun e he => ?_) fun op hop e he => ?_
      · rw [List.mem_singleton.mp he]
        trivial
      · rw [List.mem_singleton.mp hop] at he
        simp only [BaselineOp.effects, List.mem_singleton] at he
        subst he
        exact .inl hplan
  | deleteRemote =>
      simp only at hacted
      split_ifs at hacted
      · cases hacted
        exact h
      · cases hacted
        exact h.deleteRemote hleast hplan
  | conflict =>
      obtain ⟨target, -, rfl⟩ := Option.map_eq_some_iff.mp hacted
      have hperformed : Applied plan manifest events clock least before sent
          { a with batchOps := a.batchOps ++ []
                   effects := a.effects ++ [.setAside path target, .removeRow path] } := by
        refine h.perform (by simp [Effect.writes, Effect.logKey]) (fun e he => ?_)
          (fun _ hop => by cases hop)
        simp only [List.mem_cons, List.not_mem_nil, or_false] at he
        rcases he with rfl | rfl
        · trivial
        · exact .inr (.inl hplan)
      simpa only [List.append_nil] using hperformed
  | _ =>
      cases hacted
      exact h

theorem actAll {actions : List Action} {a : Applying}
    (h : Applied plan manifest events clock least before sent a) (hleast : least ≤ clock.lamport)
    (hplan : actions ⊆ plan.actions) :
    Applied plan manifest events clock least before sent (actAll clock actions a).1 := by
  induction actions generalizing a with
  | nil => exact h
  | cons action actions ih =>
      unfold FileMirror.actAll
      cases hact : FileMirror.actOne clock a action with
      | none => exact h
      | some a' =>
          exact ih (h.actOne hleast (hplan (List.mem_cons_self ..)) hact)
            fun k hk => hplan (List.mem_cons_of_mem _ hk)

end Applied

section Whole

variable {plan : Plan} {manifest : Manifest} {events : PassEvents} {clock : PassClock}
  {least : ℕ} {before : List DeltaEntry} {sent : List String}

theorem apply_applied {part : Plan} {m : Manifest} (hleast : least ≤ clock.lamport)
    (hpart : part.actions ⊆ plan.actions)
    (hstart : Applied plan manifest events clock least before events.resumes
      ⟨m, [], [], 0, [], [], []⟩) :
    ∃ sent, Applied plan manifest events clock least before sent
      (apply part events.joined m clock).1 := by
  unfold apply
  dsimp only
  split_ifs
  · have hacted : Applied plan manifest events clock least before events.sends (actAll clock
        part.actions (events.joined.foldl (joinOne part clock) ⟨m, [], [], 0, [], [], []⟩)).1 :=
      (hstart.joinAll hleast (fun _ => id) rfl).actAll hleast hpart
    refine ⟨events.sends, ?_⟩
    revert hacted
    cases actAll clock part.actions
        (events.joined.foldl (joinOne part clock) ⟨m, [], [], 0, [], [], []⟩) with
    | mk a finished =>
        intro hacted
        cases finished with
        | false => exact hacted
        | true =>
            have hflushed := hacted.flush
            have hperformed : Applied plan manifest events clock least before events.sends
                { flush clock.lamport a with
                  batchOps := (flush clock.lamport a).batchOps ++ []
                  effects := (flush clock.lamport a).effects ++ [.recordLamport clock.lamport] } := by
              refine hflushed.perform (by simp [Effect.writes, Effect.logKey]) (fun e he => ?_)
                (fun _ hop => by cases hop)
              rw [List.mem_singleton.mp he]
              trivial
            simp only [List.append_nil] at hperformed
            exact ⟨hperformed.justified, hperformed.ops, hperformed.keys, hperformed.entries,
              hperformed.tombs, hperformed.logged⟩
  · exact ⟨events.resumes, hstart⟩

/-- What `resume_uploads` has done so far. -/
structure Resumed (manifest : Manifest) (events : PassEvents) (clock : PassClock) (r : Resuming) :
    Prop where
  effects : ∀ e ∈ r.effects, ∃ path, e = .clearUpload path
  completed : ∀ c ∈ r.completed, ∃ upload, (upload, .resumed c.2) ∈ events.uploads ∧
    c.1 = newDelta manifest clock upload.path c.2

theorem resumeAll_resumed {uploads : List (PendingUpload × ResumeOutcome)} {r : Resuming}
    (h : Resumed manifest events clock r) (huploads : uploads ⊆ events.uploads) :
    Resumed manifest events clock (resumeAll manifest clock uploads r).1 := by
  have cleared : ∀ {r : Resuming} (path : String), Resumed manifest events clock r →
      Resumed manifest events clock { r with effects := r.effects ++ [.clearUpload path] } := by
    intro r path h
    refine ⟨fun e he => ?_, h.completed⟩
    rcases List.mem_append.mp he with he | he
    · exact h.effects e he
    · exact ⟨path, List.mem_singleton.mp he⟩
  induction uploads generalizing r with
  | nil => exact h
  | cons upload uploads ih =>
      have hrest : uploads ⊆ events.uploads := fun u hu => huploads (List.mem_cons_of_mem _ hu)
      obtain ⟨pending, outcome⟩ := upload
      have hpending := huploads (List.mem_cons_self ..)
      cases outcome with
      | changed => exact ih (cleared pending.path h) hrest
      | gone => exact ih (cleared pending.path h) hrest
      | error => exact cleared pending.path h
      | resumed result =>
          refine ih ⟨(cleared pending.path h).effects, fun c hc => ?_⟩ hrest
          rcases List.mem_append.mp hc with hc | hc
          · exact h.completed c hc
          · rw [List.mem_singleton.mp hc]
            exact ⟨pending, hpending, rfl⟩

theorem Resumed.logged {r : Resuming} (h : Resumed manifest events clock r)
    (hleast : least ≤ clock.lamport) {d : DeltaEntry} (hd : d ∈ r.completed.map Prod.fst)
    (known : List DeltaEntry) : Logged plan manifest events least clock.deviceId known d := by
  obtain ⟨c, hc, rfl⟩ := List.mem_map.mp hd
  obtain ⟨upload, hupload, hdelta⟩ := h.completed c hc
  rw [hdelta]
  exact
    { lamport_le := hleast
      device := rfl
      tombstone := fun hdeleted => by cases hdeleted
      sent := fun _ => ⟨c.2, .inr ⟨upload, hupload, rfl⟩, rfl⟩
      base := by
        intro _ hash hhash
        obtain ⟨e, he, rfl⟩ := Option.map_eq_some_iff.mp hhash
        exact .inl ⟨e, he, rfl⟩
      absent := fun _ hnone => .inl (Option.map_eq_none_iff.mp hnone) }

theorem getElem?_insertAll {es : List DeltaEntry} {m : Manifest} {p : String} {e : DeltaEntry}
    (h : (es.foldl (fun m entry => m.insert entry.path entry) m)[p]? = some e) :
    m[p]? = some e ∨ e ∈ es ∧ e.path = p := by
  induction es generalizing m with
  | nil => exact .inl h
  | cons f es ih =>
      rcases ih h with h | ⟨hmem, hpath⟩
      · rw [StringMap.getElem?_insert] at h
        split_ifs at h with hp
        · cases h
          exact .inr ⟨List.mem_cons_self .., hp⟩
        · exact .inl h
      · exact .inr ⟨List.mem_cons_of_mem _ hmem, hpath⟩

theorem getElem?_insertAll_none {es : List DeltaEntry} {m : Manifest} {p : String}
    (h : (es.foldl (fun m entry => m.insert entry.path entry) m)[p]? = none) : m[p]? = none := by
  induction es generalizing m with
  | nil => exact h
  | cons f es ih =>
      have hinsert := ih h
      rw [StringMap.getElem?_insert] at hinsert
      split_ifs at hinsert
      exact hinsert

/-- What is known of the effects of a pass whose clock is not at the end of its range. -/
structure PassSpec (plan : Plan) (manifest : Manifest) (events : PassEvents) (least : ℕ)
    (deviceId : String) (es : List Effect) : Prop where
  justified : Justified Effect.writes (Effect.needs plan manifest events) [] es
  keys : (es.filterMap Effect.logKey).Nodup
  keys_ge : ∀ key ∈ es.filterMap Effect.logKey, least ≤ key.1
  logged : ∃ known, written Effect.writes es ⊆ known ∧
    ∀ d ∈ known, Logged plan manifest events least deviceId known d

theorem Applied.passSpec {es : List Effect} {a : Applying}
    (hjustified : Justified Effect.writes (Effect.needs plan manifest events) [] es)
    (hkeys : (es.filterMap Effect.logKey).Nodup)
    (hearlier : ∀ key ∈ es.filterMap Effect.logKey, least ≤ key.1 ∧ key.1 < clock.lamport)
    (hleast : least ≤ clock.lamport)
    (ha : Applied plan manifest events clock least (written Effect.writes es) sent a) :
    PassSpec plan manifest events least clock.deviceId (es ++ a.effects) := by
  refine ⟨?_, ?_, ?_, a.known (written Effect.writes es), ?_, ha.logged⟩
  · rw [justified_append]
    exact ⟨hjustified, ha.justified⟩
  · rw [List.filterMap_append, ha.keys, List.nodup_append]
    refine ⟨hkeys, ?_, ?_⟩
    · refine List.Nodup.map ?_ List.nodup_range
      intro seq seq' h
      exact (Prod.mk.inj h).2
    · rintro key hkey key' hkey' rfl
      obtain ⟨seq, -, heq⟩ := List.mem_map.mp hkey'
      have hlt := (hearlier key hkey).2
      rw [← heq] at hlt
      omega
  · intro key hkey
    rw [List.filterMap_append, List.mem_append, ha.keys] at hkey
    rcases hkey with hkey | hkey
    · exact (hearlier key hkey).1
    · obtain ⟨seq, -, rfl⟩ := List.mem_map.mp hkey
      exact hleast
  · rw [written_append, Applying.known]
    exact List.subset_append_left _ _

theorem Resumed.silent {r : Resuming} (h : Resumed manifest events clock r) :
    ∀ e ∈ r.effects, e.writes = [] ∧ e.logKey = none := by
  intro e he
  obtain ⟨path, rfl⟩ := h.effects e he
  exact ⟨rfl, rfl⟩

theorem Resumed.justified {r : Resuming} (h : Resumed manifest events clock r) :
    Justified Effect.writes (Effect.needs plan manifest events) [] r.effects := by
  refine justified_of_forall Effect.needs_mono fun e he => ?_
  obtain ⟨path, rfl⟩ := h.effects e he
  trivial

theorem lamportAfter_silent {device : DeviceState} {es : List Effect}
    (h : ∀ e ∈ es, ∀ clock, e ≠ .recordLamport clock) : lamportAfter device es = device.lamport := by
  unfold lamportAfter
  generalize device.lamport = lamport
  induction es generalizing lamport with
  | nil => rfl
  | cons e es ih =>
      rw [List.foldl_cons, ih (fun f hf => h f (List.mem_cons_of_mem _ hf))]
      have he := h e (List.mem_cons_self ..)
      cases e with
      | recordLamport clock => exact absurd rfl (he clock)
      | _ => rfl

def Resuming.logs (r : Resuming) (lamport : ℕ) : List Effect :=
  .logDelta lamport 0 (r.completed.map Prod.fst) :: .recordLamport lamport ::
    r.completed.map fun c => .confirmSync c.1.path c.2.size c.2.mtimeNs c.2.contentHash

theorem Resumed.justified_logs {r : Resuming} (h : Resumed manifest events clock r) (lamport : ℕ) :
    Justified Effect.writes (Effect.needs plan manifest events) [] (r.effects ++ r.logs lamport) := by
  rw [justified_append]
  refine ⟨h.justified, trivial, trivial, ?_⟩
  refine justified_of_forall Effect.needs_mono fun e he => ?_
  obtain ⟨c, hc, rfl⟩ := List.mem_map.mp he
  obtain ⟨upload, -, hdelta⟩ := h.completed c hc
  refine .inr ⟨c.1, ?_, rfl, by rw [hdelta]; rfl, by rw [hdelta]; rfl⟩
  simp only [Effect.writes, List.append_nil, List.mem_append]
  exact .inr (List.mem_map_of_mem hc)

theorem Resuming.written_logs (r : Resuming) (lamport : ℕ) :
    written Effect.writes (r.logs lamport) = r.completed.map Prod.fst := by
  have hconfirms : ∀ e ∈ r.completed.map fun c =>
      Effect.confirmSync c.1.path c.2.size c.2.mtimeNs c.2.contentHash, e.writes = [] := by
    intro e he
    obtain ⟨c, -, rfl⟩ := List.mem_map.mp he
    rfl
  have htail := Applied.written_silent hconfirms
  simp only [written] at htail
  simp [Resuming.logs, written, Effect.writes, htail]

theorem Resuming.logKeys_logs (r : Resuming) (lamport : ℕ) :
    (r.logs lamport).filterMap Effect.logKey = [(lamport, 0)] := by
  have hconfirms : (r.completed.map fun c =>
      Effect.confirmSync c.1.path c.2.size c.2.mtimeNs c.2.contentHash).filterMap Effect.logKey
        = [] := by
    refine Applied.logKeys_silent fun e he => ?_
    obtain ⟨c, -, rfl⟩ := List.mem_map.mp he
    rfl
  have hhead : ((r.logs lamport).take 2).filterMap Effect.logKey = [(lamport, 0)] := rfl
  rw [← List.take_append_drop 2 (r.logs lamport), List.filterMap_append, hhead]
  exact congrArg _ hconfirms

theorem Resuming.lamportAfter_logs {device : DeviceState} {r : Resuming} {lamport : ℕ} :
    lamportAfter device (r.effects ++ r.logs lamport) = min lamport i64Max := by
  have hconfirms : ∀ (step : ℕ → Effect → ℕ) (l : ℕ) (cs : List (DeltaEntry × UploadResult)),
      (∀ l path size mtimeNs hash, step l (.confirmSync path size mtimeNs hash) = l) →
        (cs.map fun c => Effect.confirmSync c.1.path c.2.size c.2.mtimeNs c.2.contentHash).foldl
          step l = l := by
    intro step l cs hstep
    induction cs with
    | nil => rfl
    | cons c cs ih =>
        rw [List.map_cons, List.foldl_cons, hstep]
        exact ih
  unfold lamportAfter Resuming.logs
  rw [List.foldl_append, List.foldl_cons, List.foldl_cons]
  exact hconfirms _ _ _ fun _ _ _ _ _ => rfl

theorem Resumed.applied {r : Resuming} {lamport : ℕ} (h : Resumed manifest events clock r)
    (hleast : least ≤ clock.lamport) {later : PassClock} (hdevice : later.deviceId = clock.deviceId) :
    Applied plan manifest events later least (written Effect.writes (r.effects ++ r.logs lamport))
      events.resumes ⟨(r.completed.map Prod.fst).foldl (fun m entry => m.insert entry.path entry) manifest,
        [], [], 0, [], [], []⟩ := by
  have hbefore : written Effect.writes (r.effects ++ r.logs lamport) = r.completed.map Prod.fst := by
    rw [written_append, Applied.written_silent fun e he => (h.silent e he).1, r.written_logs,
      List.nil_append]
  have hknown : ∀ d, d ∈ Applying.known (written Effect.writes (r.effects ++ r.logs lamport))
      ⟨(r.completed.map Prod.fst).foldl (fun m entry => m.insert entry.path entry) manifest,
        [], [], 0, [], [], []⟩ ↔ d ∈ r.completed.map Prod.fst := by
    intro d
    rw [Applying.known, hbefore]
    simp [written]
  refine ⟨trivial, fun _ hop => absurd hop List.not_mem_nil, rfl, ?_, ?_, ?_⟩
  · intro p e he
    refine (getElem?_insertAll he).imp_right ?_
    rintro ⟨hmem, hpath⟩
    obtain ⟨c, hc, rfl⟩ := List.mem_map.mp hmem
    obtain ⟨upload, hupload, hdelta⟩ := h.completed c hc
    refine ⟨(hknown _).mpr hmem, hpath, by rw [hdelta]; rfl, ?_⟩
    refine List.mem_flatMap.mpr ⟨_, hupload, List.mem_singleton.mpr ?_⟩
    rw [← hpath, hdelta]
    rfl
  · exact fun p hp => .inl (getElem?_insertAll_none hp)
  · intro d hd
    rw [hdevice]
    exact h.logged hleast ((hknown d).mp hd) _

section Cases

variable {remoteLamport : ℕ} {device : DeviceState} {r : Resuming}

theorem passEffects_of_error
    (hall : resumeAll manifest (events.clock device (nextLamport remoteLamport device.lamport))
      events.uploads ⟨[], []⟩ = (r, false)) :
    passEffects plan manifest remoteLamport device events = r.effects := by
  simp only [passEffects, resumeUploads, hall]

theorem passEffects_of_none
    (hall : resumeAll manifest (events.clock device (nextLamport remoteLamport device.lamport))
      events.uploads ⟨[], []⟩ = (r, true)) (hcompleted : r.completed = []) :
    passEffects plan manifest remoteLamport device events =
      r.effects ++ (apply (dropResumed plan []) events.joined manifest (events.clock device
        (nextLamport remoteLamport (lamportAfter device r.effects)))).1.effects := by
  simp only [passEffects, resumeUploads, hall, hcompleted, if_true]

theorem passEffects_of_resumed {lamport : ℕ}
    (hlamport : lamport = nextLamport remoteLamport device.lamport)
    (hall : resumeAll manifest (events.clock device lamport) events.uploads ⟨[], []⟩ = (r, true))
    (hcompleted : r.completed ≠ []) :
    passEffects plan manifest remoteLamport device events =
      (r.effects ++ r.logs lamport) ++
        (apply (dropResumed plan ((r.completed.map Prod.fst).map DeltaEntry.path)) events.joined
          ((r.completed.map Prod.fst).foldl (fun m entry => m.insert entry.path entry) manifest)
          (events.clock device (nextLamport remoteLamport
            (lamportAfter device (r.effects ++ r.logs lamport))))).1.effects := by
  subst hlamport
  simp only [passEffects, resumeUploads, hall, hcompleted, if_false]
  rfl

end Cases

theorem passEffects_split (plan : Plan) (manifest : Manifest) (events : PassEvents)
    (remoteLamport : ℕ) (device : DeviceState)
    (hleast : least ≤ nextLamport remoteLamport device.lamport)
    (hlater : least ≤ nextLamport remoteLamport
      (min (nextLamport remoteLamport device.lamport) i64Max)) :
    ∃ es a sent lamport, passEffects plan manifest remoteLamport device events = es ++ a.effects ∧
      Justified Effect.writes (Effect.needs plan manifest events) [] es ∧ least ≤ lamport ∧
      (es.filterMap Effect.logKey = [] ∨
        es.filterMap Effect.logKey = [(nextLamport remoteLamport device.lamport, 0)] ∧
          lamport = nextLamport remoteLamport
            (min (nextLamport remoteLamport device.lamport) i64Max)) ∧
      Applied plan manifest events (events.clock device lamport) least
        (written Effect.writes es) sent a := by
  set first := nextLamport remoteLamport device.lamport with hfirst
  have hdrop : ∀ resumed, (dropResumed plan resumed).actions ⊆ plan.actions := fun resumed =>
    List.filter_subset_self ..
  have hstart : Resumed manifest events (events.clock device first) ⟨[], []⟩ :=
    ⟨fun _ he => absurd he List.not_mem_nil, fun _ hc => absurd hc List.not_mem_nil⟩
  have hresumed := resumeAll_resumed hstart (fun _ => id : events.uploads ⊆ events.uploads)
  cases hall : resumeAll manifest (events.clock device first) events.uploads ⟨[], []⟩ with
  | mk r finished =>
      rw [hall] at hresumed
      have hkeys : r.effects.filterMap Effect.logKey = [] :=
        Applied.logKeys_silent fun e he => (hresumed.silent e he).2
      have hwritten : written Effect.writes r.effects = [] :=
        Applied.written_silent fun e he => (hresumed.silent e he).1
      have hstarted : Applied plan manifest events (events.clock device first) least
          (written Effect.writes r.effects) events.resumes ⟨manifest, [], [], 0, [], [], []⟩ := by
        rw [hwritten]
        exact ⟨trivial, fun _ hop => absurd hop List.not_mem_nil, rfl, fun _ _ => .inl,
          fun _ => .inl, fun _ hd => absurd hd List.not_mem_nil⟩
      cases finished with
      | false =>
          refine ⟨r.effects, _, _, first, ?_, hresumed.justified, hleast, .inl hkeys, hstarted⟩
          rw [passEffects_of_error hall, List.append_nil]
      | true =>
          by_cases hcompleted : r.completed = []
          · have hafter : lamportAfter device r.effects = device.lamport := by
              refine lamportAfter_silent fun e he clock => ?_
              obtain ⟨path, rfl⟩ := hresumed.effects e he
              exact fun heq => by cases heq
            obtain ⟨sent, happlied⟩ := apply_applied hleast (hdrop []) hstarted
            refine ⟨r.effects, _, sent, first, ?_, hresumed.justified, hleast, .inl hkeys, happlied⟩
            rw [passEffects_of_none hall hcompleted, hafter]
          · have hlogKeys : (r.effects ++ r.logs first).filterMap Effect.logKey = [(first, 0)] := by
              rw [List.filterMap_append, hkeys, r.logKeys_logs, List.nil_append]
            have hdevice : (events.clock device (nextLamport remoteLamport
                (min first i64Max))).deviceId = (events.clock device first).deviceId := rfl
            obtain ⟨sent, happlied⟩ := apply_applied hlater (hdrop _)
              (hresumed.applied hleast hdevice)
            refine ⟨r.effects ++ r.logs first, _, sent, _, ?_, hresumed.justified_logs first, hlater,
              .inr ⟨hlogKeys, rfl⟩, happlied⟩
            rw [passEffects_of_resumed hfirst hall hcompleted, Resuming.lamportAfter_logs]

theorem passEffects_spec (remoteLamport : ℕ) (device : DeviceState)
    (hclock : nextLamport remoteLamport device.lamport ≤ i64Max) :
    PassSpec plan manifest events (nextLamport remoteLamport device.lamport) device.deviceId
      (passEffects plan manifest remoteLamport device events) := by
  have hlater : nextLamport remoteLamport (min (nextLamport remoteLamport device.lamport) i64Max) =
      nextLamport remoteLamport device.lamport + 1 := by
    rw [Nat.min_eq_left hclock]
    unfold nextLamport
    omega
  obtain ⟨es, a, sent, lamport, hes, hjustified, hle, hkeys, happlied⟩ :=
    passEffects_split plan manifest events remoteLamport device le_rfl (hlater ▸ Nat.le_succ _)
  rw [hes]
  change PassSpec plan manifest events _ (events.clock device lamport).deviceId _
  rcases hkeys with hkeys | ⟨hkeys, rfl⟩
  · refine Applied.passSpec hjustified ?_ ?_ hle happlied
    · rw [hkeys]
      exact List.nodup_nil
    · rw [hkeys]
      exact fun _ hkey => absurd hkey List.not_mem_nil
  · refine Applied.passSpec hjustified ?_ ?_ hle happlied
    · rw [hkeys]
      exact List.nodup_singleton _
    · rw [hkeys]
      intro key hkey
      rw [List.mem_singleton.mp hkey]
      refine ⟨le_rfl, ?_⟩
      change _ < nextLamport remoteLamport _
      omega

theorem passEffects_logged (plan : Plan) (manifest : Manifest) (events : PassEvents)
    (remoteLamport : ℕ) (device : DeviceState) :
    ∃ known, written Effect.writes (passEffects plan manifest remoteLamport device events) ⊆ known ∧
      ∀ d ∈ known, Logged plan manifest events 0 device.deviceId known d := by
  obtain ⟨es, a, sent, lamport, hes, -, -, -, happlied⟩ :=
    passEffects_split plan manifest events remoteLamport device (Nat.zero_le _) (Nat.zero_le _)
  refine ⟨_, ?_, happlied.logged⟩
  rw [hes, written_append, Applying.known]
  exact List.subset_append_left _ _

end Whole

end FileMirror
