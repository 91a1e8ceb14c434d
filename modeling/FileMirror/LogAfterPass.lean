import FileMirror.DeviceRuns

set_option autoImplicit false

namespace FileMirror

open WriteAhead

def Manifest.replayed (m : Manifest) (deltas : List DeltaEntry) : Manifest :=
  deltas.foldl (fun m entry => m.insert entry.path entry) m

def Outcome.sentHash : Outcome → Option ContentHash
  | .uploaded r | .relocated r => some r.contentHash
  | _ => none

def landed (joined : List (Action × Outcome)) (path : String) : Option ContentHash :=
  (joined.filterMap fun j => if j.1.path = path then j.2.sentHash else none).getLast?

def pinnedBy (plan : Plan) (joined : List (Action × Outcome)) : List String :=
  joined.filterMap fun j =>
    match j.2 with
    | .failed _ => plan.relocations[j.1.path]?.map DeltaEntry.path
    | _ => none

/-- The manifest of `apply` has the versions of the log. -/
def Applying.Tracks (m : Manifest) (a : Applying) : Prop :=
  ∀ path, (m.replayed (written Effect.writes a.effects ++ a.deltas)).liveHash path =
    a.manifest.liveHash path

section Manifest

variable {m n : Manifest} {path q : String} {entry : DeltaEntry} {ds es : List DeltaEntry}

theorem liveHash_insert : Manifest.liveHash (m.insert path entry) q =
    if path = q then (if entry.deleted then none else some entry.plaintextHash)
    else m.liveHash q := by
  simp only [Manifest.liveHash, StringMap.getElem?_insert]
  split_ifs <;> simp_all

theorem liveHash_erase :
    Manifest.liveHash (m.erase path) q = if path = q then none else m.liveHash q := by
  simp only [Manifest.liveHash, StringMap.getElem?_erase]
  split_ifs <;> rfl

theorem replayed_append : m.replayed (ds ++ es) = (m.replayed ds).replayed es :=
  List.foldl_append

theorem replayed_congr (ds : List DeltaEntry) (h : ∀ path, n.liveHash path = m.liveHash path)
    (path : String) : (n.replayed ds).liveHash path = (m.replayed ds).liveHash path := by
  induction ds generalizing n m with
  | nil => exact h path
  | cons d ds ih =>
      refine ih fun q => ?_
      rw [liveHash_insert, liveHash_insert, h q]

theorem replayed_live (hds : ∀ d ∈ ds, d.deleted = false) (h : (m.liveHash q).isSome) :
    ((m.replayed ds).liveHash q).isSome := by
  induction ds generalizing m with
  | nil => exact h
  | cons d ds ih =>
      refine ih (fun e he => hds e (List.mem_cons_of_mem _ he)) ?_
      rw [liveHash_insert, hds d (List.mem_cons_self ..), if_neg Bool.false_ne_true]
      split_ifs
      · rfl
      · exact h

end Manifest

section Tracks

variable {m : Manifest} {a a' : Applying} {plan : Plan} {clock : PassClock} {lamport : ℕ}
  {path : String}

theorem written_operations (ops : List BaselineOp) :
    written Effect.writes (ops.flatMap BaselineOp.effects) = [] := by
  refine Applied.written_silent fun e he => ?_
  obtain ⟨op, -, he⟩ := List.mem_flatMap.mp he
  exact (Applied.effects_writes op e he).1

theorem flush_manifest : (flush lamport a).manifest = a.manifest := rfl

theorem flushIfFull_manifest : (flushIfFull lamport a).manifest = a.manifest := by
  unfold flushIfFull
  split_ifs
  · rfl
  · rfl

theorem Applying.Tracks.flush (h : a.Tracks m) : (flush lamport a).Tracks m := by
  have hwritten : written Effect.writes (FileMirror.flush lamport a).effects =
      written Effect.writes a.effects ++ a.deltas := by
    simp only [FileMirror.flush, written_append, written_operations, List.append_nil]
    by_cases hdeltas : a.deltas = []
    · simp [hdeltas, written]
    · simp [hdeltas, written, Effect.writes]
  intro path
  rw [hwritten]
  change (m.replayed (_ ++ [])).liveHash path = a.manifest.liveHash path
  rw [List.append_nil]
  exact h path

theorem Applying.Tracks.flushIfFull (h : a.Tracks m) : (flushIfFull lamport a).Tracks m := by
  unfold FileMirror.flushIfFull
  split_ifs
  · exact h.flush
  · exact h

theorem Applying.Tracks.operate {es : List Effect} {ops : List BaselineOp} {pinned : List String}
    {failed : List (String × String)} (h : a.Tracks m) (hes : written Effect.writes es = []) :
    Applying.Tracks m { a with batchOps := ops, effects := a.effects ++ es
                               pinnedSources := pinned, failed } := by
  intro path
  change (m.replayed (written Effect.writes (a.effects ++ es) ++ a.deltas)).liveHash path = _
  rw [written_append, hes, List.append_nil]
  exact h path

theorem Applying.Tracks.same {ops : List BaselineOp} {pinned : List String}
    {failed : List (String × String)} (h : a.Tracks m) :
    Applying.Tracks m { a with batchOps := ops, pinnedSources := pinned, failed } := h

theorem Applying.Tracks.send {r : UploadResult} {ops : List BaselineOp} (h : a.Tracks m) :
    Applying.Tracks m { a with
      manifest := a.manifest.insert path (newDelta a.manifest clock path r)
      deltas := a.deltas ++ [newDelta a.manifest clock path r]
      batchOps := ops } := by
  intro q
  change (m.replayed (written Effect.writes a.effects ++ (a.deltas ++ [_]))).liveHash q = _
  rw [← List.append_assoc, replayed_append]
  exact replayed_congr [newDelta a.manifest clock path r] h q

theorem Applying.Tracks.joinOne {j : Action × Outcome} (h : a.Tracks m) :
    (joinOne plan clock a j).Tracks m := by
  obtain ⟨action, outcome⟩ := j
  refine Applying.Tracks.flushIfFull ?_
  cases outcome with
  | failed error => exact h.same
  | deferred => exact h
  | uploaded r => exact h.send
  | relocated r => exact h.send
  | downloaded r => exact h.same

theorem Applying.Tracks.deleteRemote {ops : List BaselineOp} (h : a.Tracks m) :
    Applying.Tracks m { a with
      deltas := a.deltas ++ (a.manifest[path]?.map (tombstone clock path)).toList
      manifest := a.manifest.erase path
      batchOps := ops } := by
  intro q
  change (m.replayed (written Effect.writes a.effects ++ (a.deltas ++ _))).liveHash q = _
  rw [← List.append_assoc, replayed_append, replayed_congr _ h q]
  cases hentry : a.manifest[path]? with
  | none =>
      rw [liveHash_erase]
      split_ifs with hq
      · subst hq
        simp [Manifest.replayed, Manifest.liveHash, hentry]
      · rfl
  | some entry =>
      change Manifest.liveHash (a.manifest.insert path (tombstone clock path entry)) q = _
      rw [liveHash_erase, liveHash_insert]
      rfl

theorem Applying.Tracks.actOne {action : Action} (h : a.Tracks m)
    (hact : actOne clock a action = some a') : a'.Tracks m := by
  obtain ⟨path, kind⟩ := action
  unfold FileMirror.actOne at hact
  obtain ⟨acted, hacted, rfl⟩ := Option.map_eq_some_iff.mp hact
  refine Applying.Tracks.flushIfFull ?_
  cases kind with
  | createPlaceholder | updatePlaceholder =>
      simp only at hacted
      split_ifs at hacted
      · cases hacted
        exact h
      · obtain ⟨entry, -, rfl⟩ := Option.map_eq_some_iff.mp hacted
        exact h.same
  | deleteLocal =>
      cases hacted
      exact h.operate rfl
  | deleteRemote =>
      simp only at hacted
      split_ifs at hacted
      · cases hacted
        exact h
      · cases hacted
        exact h.deleteRemote
  | conflict =>
      obtain ⟨target, -, rfl⟩ := Option.map_eq_some_iff.mp hacted
      exact h.operate rfl
  | download | hydrate | relocate | upload =>
      cases hacted
      exact h

theorem Applying.Tracks.joinAll {joined : List (Action × Outcome)} (h : a.Tracks m) :
    (joined.foldl (FileMirror.joinOne plan clock) a).Tracks m := by
  induction joined generalizing a with
  | nil => exact h
  | cons j joined ih => exact ih h.joinOne

theorem Applying.Tracks.actAll {actions : List Action} (h : a.Tracks m) :
    (actAll clock actions a).1.Tracks m := by
  induction actions generalizing a with
  | nil => exact h
  | cons action actions ih =>
      unfold FileMirror.actAll
      cases hact : FileMirror.actOne clock a action with
      | none => exact h
      | some b => exact ih (h.actOne hact)

end Tracks

section Loops

variable {a a' : Applying} {plan : Plan} {clock : PassClock} {path : String}
  {joined : List (Action × Outcome)} {actions : List Action} {action : Action}

theorem landed_cons (j : Action × Outcome) : landed (j :: joined) path =
    (landed joined path).or (if j.1.path = path then j.2.sentHash else none) := by
  unfold landed
  rw [List.filterMap_cons]
  cases (if j.1.path = path then j.2.sentHash else none) with
  | none => simp
  | some hash =>
      rw [List.getLast?_cons]
      cases (joined.filterMap fun j => if j.1.path = path then j.2.sentHash else none).getLast? with
      | none => rfl
      | some last => rfl

theorem landed_eq_some {hash : ContentHash} (h : landed joined path = some hash) :
    ∃ j ∈ joined, j.1.path = path ∧ j.2.sentHash = some hash := by
  have hmem := List.mem_of_getLast? h
  rw [List.mem_filterMap] at hmem
  obtain ⟨j, hj, hsent⟩ := hmem
  split_ifs at hsent with hpath
  exact ⟨j, hj, hpath, hsent⟩

theorem landed_eq_none : landed joined path = none ↔
    ∀ j ∈ joined, j.1.path = path → j.2.sentHash = none := by
  unfold landed
  rw [List.getLast?_eq_none_iff, List.filterMap_eq_nil_iff]
  constructor
  · intro h j hj hpath
    simpa [hpath] using h j hj
  · intro h j hj
    split_ifs with hpath
    · exact h j hj hpath
    · rfl

theorem joinOne_liveHash (j : Action × Outcome) :
    (joinOne plan clock a j).manifest.liveHash path =
      (if j.1.path = path then j.2.sentHash else none).or (a.manifest.liveHash path) := by
  obtain ⟨action, outcome⟩ := j
  unfold joinOne
  rw [flushIfFull_manifest]
  cases outcome with
  | uploaded r | relocated r =>
      change Manifest.liveHash (a.manifest.insert action.path _) path = _
      rw [liveHash_insert]
      split_ifs with hpath hdeleted
      · cases hdeleted
      · rfl
      · rfl
  | failed | deferred | downloaded => split_ifs <;> rfl

theorem joinAll_liveHash : (joined.foldl (joinOne plan clock) a).manifest.liveHash path =
    (landed joined path).or (a.manifest.liveHash path) := by
  induction joined generalizing a with
  | nil => rfl
  | cons j joined ih => rw [List.foldl_cons, ih, joinOne_liveHash, landed_cons, Option.or_assoc]

theorem joinAll_pinnedSources : (joined.foldl (joinOne plan clock) a).pinnedSources =
    a.pinnedSources ++ pinnedBy plan joined := by
  induction joined generalizing a with
  | nil => simp [pinnedBy]
  | cons j joined ih =>
      obtain ⟨action, outcome⟩ := j
      rw [List.foldl_cons, ih]
      cases outcome with
      | failed error =>
          simp only [joinOne, flushIfFull_pinned, pinnedBy, List.filterMap_cons]
          cases plan.relocations[action.path]? <;> simp
      | _ => simp [joinOne, flushIfFull_pinned, pinnedBy]

theorem actOne_pinned (h : actOne clock a action = some a') :
    a'.pinnedSources = a.pinnedSources := by
  obtain ⟨acted, rfl, -, -, hpinned⟩ := actOne_grows h
  rw [flushIfFull_pinned, hpinned]

theorem actOne_liveHash (h : actOne clock a action = some a') : a'.manifest.liveHash path =
    if action = ⟨path, .deleteRemote⟩ ∧ path ∉ a.pinnedSources then none
    else a.manifest.liveHash path := by
  obtain ⟨p, kind⟩ := action
  unfold actOne at h
  obtain ⟨acted, hacted, rfl⟩ := Option.map_eq_some_iff.mp h
  rw [flushIfFull_manifest]
  cases kind with
  | createPlaceholder | updatePlaceholder =>
      simp only at hacted
      split_ifs at hacted
      · cases hacted
        simp
      · obtain ⟨entry, -, rfl⟩ := Option.map_eq_some_iff.mp hacted
        simp
  | deleteRemote =>
      simp only at hacted
      split_ifs at hacted with hpinned
      · cases hacted
        rw [if_neg]
        rintro ⟨heq, hfree⟩
        cases heq
        exact hfree hpinned
      · cases hacted
        simp only [liveHash_erase, Action.mk.injEq, and_true]
        by_cases hp : p = path
        · subst hp
          simp [hpinned]
        · simp [hp]
  | conflict =>
      obtain ⟨target, -, rfl⟩ := Option.map_eq_some_iff.mp hacted
      simp
  | _ =>
      cases hacted
      simp

theorem actAll_liveHash (hended : (actAll clock actions a).2 = true) :
    (actAll clock actions a).1.manifest.liveHash path =
      if ⟨path, .deleteRemote⟩ ∈ actions ∧ path ∉ a.pinnedSources then none
      else a.manifest.liveHash path := by
  induction actions generalizing a with
  | nil => simp [actAll]
  | cons action actions ih =>
      unfold actAll at hended ⊢
      cases hact : actOne clock a action with
      | none =>
          rw [hact] at hended
          cases hended
      | some b =>
          rw [hact] at hended
          change (actAll clock actions b).1.manifest.liveHash path = _
          rw [ih hended, actOne_liveHash hact, actOne_pinned hact]
          by_cases hpinned : path ∈ a.pinnedSources
          · simp [hpinned]
          · by_cases hfirst : action = ⟨path, .deleteRemote⟩
            · simp [hfirst, hpinned]
            · simp [hpinned, hfirst, Ne.symm hfirst]

theorem actAll_ends (hnames : ∀ p, ⟨p, .conflict⟩ ∈ actions → (safeJoin (replaceName p
      (conflictName p (clock.utc p) clock.deviceName))).isSome)
    (hentries : ∀ p, ⟨p, .createPlaceholder⟩ ∈ actions ∨ ⟨p, .updatePlaceholder⟩ ∈ actions →
      (a.manifest.liveHash p).isSome ∧ ⟨p, .deleteRemote⟩ ∉ actions) :
    (actAll clock actions a).2 = true := by
  induction actions generalizing a with
  | nil => rfl
  | cons action actions ih =>
      have hacts : ∃ b, actOne clock a action = some b := by
        obtain ⟨p, kind⟩ := action
        have placeholder : (⟨p, .createPlaceholder⟩ ∈ (⟨p, kind⟩ :: actions) ∨
            ⟨p, .updatePlaceholder⟩ ∈ (⟨p, kind⟩ :: actions)) →
            ∃ entry, a.manifest[p]? = some entry := by
          intro hmem
          obtain ⟨hash, hhash⟩ := Option.isSome_iff_exists.mp (hentries p hmem).1
          obtain ⟨entry, hentry, -⟩ := Option.bind_eq_some_iff.mp hhash
          exact ⟨entry, hentry⟩
        cases kind with
        | createPlaceholder =>
            obtain ⟨entry, hentry⟩ := placeholder (.inl (List.mem_cons_self ..))
            by_cases hpinned : p ∈ a.pinnedSources <;> simp [actOne, hpinned, hentry]
        | updatePlaceholder =>
            obtain ⟨entry, hentry⟩ := placeholder (.inr (List.mem_cons_self ..))
            by_cases hpinned : p ∈ a.pinnedSources <;> simp [actOne, hpinned, hentry]
        | deleteRemote => by_cases hpinned : p ∈ a.pinnedSources <;> simp [actOne, hpinned]
        | conflict =>
            obtain ⟨target, htarget⟩ :=
              Option.isSome_iff_exists.mp (hnames p (List.mem_cons_self ..))
            simp [actOne, htarget]
        | _ => simp [actOne]
      obtain ⟨b, hact⟩ := hacts
      unfold actAll
      rw [hact]
      refine ih (fun p hp => hnames p (List.mem_cons_of_mem _ hp)) fun p hp => ?_
      have hboth := hentries p (hp.imp (List.mem_cons_of_mem _) (List.mem_cons_of_mem _))
      rw [List.mem_cons, not_or] at hboth
      refine ⟨?_, hboth.2.2⟩
      rw [actOne_liveHash hact, if_neg fun h => hboth.2.1 h.1.symm]
      exact hboth.1

theorem actAll_names (hended : (actAll clock actions a).2 = true) (p : String)
    (hmem : ⟨p, .conflict⟩ ∈ actions) : (safeJoin (replaceName p
      (conflictName p (clock.utc p) clock.deviceName))).isSome := by
  induction actions generalizing a with
  | nil => cases hmem
  | cons action actions ih =>
      unfold actAll at hended
      cases hact : actOne clock a action with
      | none =>
          rw [hact] at hended
          cases hended
      | some b =>
          rw [hact] at hended
          rcases List.mem_cons.mp hmem with rfl | hmem
          · unfold actOne at hact
            obtain ⟨acted, hacted, -⟩ := Option.map_eq_some_iff.mp hact
            obtain ⟨target, htarget, -⟩ := Option.map_eq_some_iff.mp hacted
            exact Option.isSome_iff_exists.mpr ⟨target, htarget⟩
          · exact ih hended hmem

end Loops

section Whole

variable {plan : Plan} {manifest resumedManifest : Manifest} {remoteLamport : ℕ}
  {device : DeviceState} {events : PassEvents} {clock : PassClock} {path : String}
  {joined : List (Action × Outcome)} {es : List Effect} {resumed : List String}

theorem resumeUploads_replayed
    (h : resumeUploads manifest clock events.uploads = (es, some (resumedManifest, resumed))) :
    manifest.replayed (written Effect.writes es) = resumedManifest := by
  have hstart : Resumed manifest events clock ⟨[], []⟩ :=
    ⟨fun _ he => absurd he List.not_mem_nil, fun _ hc => absurd hc List.not_mem_nil⟩
  have hspec := resumeAll_resumed hstart (fun _ => id : events.uploads ⊆ events.uploads)
  unfold resumeUploads at h
  cases hall : resumeAll manifest clock events.uploads ⟨[], []⟩ with
  | mk r finished =>
      rw [hall] at h hspec
      have hsilent := Applied.written_silent fun e he => (hspec.silent e he).1
      cases finished with
      | false => cases h
      | true =>
          simp only at h
          split_ifs at h with hcompleted
          · cases h
            rw [hsilent]
            rfl
          · cases h
            change manifest.replayed (written _ (r.effects ++ r.logs clock.lamport)) = _
            rw [written_append, hsilent, Resuming.written_logs]
            rfl

theorem resumeUploads_live
    (h : resumeUploads manifest clock events.uploads = (es, some (resumedManifest, resumed)))
    (hlive : (manifest.liveHash path).isSome) : (resumedManifest.liveHash path).isSome := by
  have hstart : Resumed manifest events clock ⟨[], []⟩ :=
    ⟨fun _ he => absurd he List.not_mem_nil, fun _ hc => absurd hc List.not_mem_nil⟩
  have hspec := resumeAll_resumed hstart (fun _ => id : events.uploads ⊆ events.uploads)
  unfold resumeUploads at h
  cases hall : resumeAll manifest clock events.uploads ⟨[], []⟩ with
  | mk r finished =>
      rw [hall] at h hspec
      cases finished with
      | false => cases h
      | true =>
          simp only at h
          split_ifs at h with hcompleted
          · cases h
            exact hlive
          · cases h
            change (Manifest.liveHash (manifest.replayed (r.completed.map Prod.fst)) path).isSome
            refine replayed_live (fun d hd => ?_) hlive
            obtain ⟨c, hc, rfl⟩ := List.mem_map.mp hd
            obtain ⟨upload, -, hdelta⟩ := hspec.completed c hc
            rw [hdelta]
            rfl

theorem apply_ended_iff : (apply plan joined manifest clock).2 = true ↔
    spawnable plan manifest = true ∧ (actAll clock plan.actions
      (joined.foldl (joinOne plan clock) ⟨manifest, [], [], 0, [], [], []⟩)).2 = true := by
  unfold apply
  dsimp only
  split_ifs with hspawns
  · simp only [true_and, hspawns]
    cases actAll clock plan.actions
        (joined.foldl (joinOne plan clock) ⟨manifest, [], [], 0, [], [], []⟩) with
    | mk a finished => cases finished <;> simp
  · simp [hspawns]

theorem apply_ends {others : List (Action × Outcome)}
    (hended : (apply plan joined manifest clock).2 = true)
    (hentries : ∀ p, ⟨p, .createPlaceholder⟩ ∈ plan.actions ∨ ⟨p, .updatePlaceholder⟩ ∈ plan.actions →
      (manifest.liveHash p).isSome ∧ ⟨p, .deleteRemote⟩ ∉ plan.actions) :
    (apply plan others manifest clock).2 = true := by
  rw [apply_ended_iff] at hended ⊢
  refine ⟨hended.1, actAll_ends (actAll_names hended.2) fun p hp => ?_⟩
  refine ⟨?_, (hentries p hp).2⟩
  rw [joinAll_liveHash]
  cases landed others p with
  | none => exact (hentries p hp).1
  | some hash => rfl

theorem apply_finished (hended : (apply plan joined manifest clock).2 = true) : ∃ a,
    actAll clock plan.actions (joined.foldl (joinOne plan clock)
      ⟨manifest, [], [], 0, [], [], []⟩) = (a, true) ∧
    (apply plan joined manifest clock).1.effects =
      (flush clock.lamport a).effects ++ [.recordLamport clock.lamport] := by
  obtain ⟨hspawns, hall⟩ := apply_ended_iff.mp hended
  cases hacted : actAll clock plan.actions (joined.foldl (joinOne plan clock)
      ⟨manifest, [], [], 0, [], [], []⟩) with
  | mk a finished =>
      rw [hacted] at hall
      cases hall
      refine ⟨a, rfl, ?_⟩
      simp only [apply, hspawns, if_true, hacted]

theorem apply_liveHash (hended : (apply plan joined manifest clock).2 = true) :
    (manifest.replayed (written Effect.writes
      (apply plan joined manifest clock).1.effects)).liveHash path =
      if ⟨path, .deleteRemote⟩ ∈ plan.actions ∧ path ∉ pinnedBy plan joined then none
      else (landed joined path).or (manifest.liveHash path) := by
  let start : Applying := ⟨manifest, [], [], 0, [], [], []⟩
  have hstart : start.Tracks manifest := fun _ => rfl
  have htracks : (actAll clock plan.actions
      (joined.foldl (joinOne plan clock) start)).1.Tracks manifest := hstart.joinAll.actAll
  have hall := (apply_ended_iff.mp hended).2
  obtain ⟨a, hacted, heffects⟩ := apply_finished hended
  have hlive : (actAll clock plan.actions
      (joined.foldl (joinOne plan clock) start)).1.manifest.liveHash path =
      if ⟨path, .deleteRemote⟩ ∈ plan.actions ∧ path ∉ pinnedBy plan joined then none
      else (landed joined path).or (manifest.liveHash path) := by
    rw [actAll_liveHash hall, joinAll_liveHash, joinAll_pinnedSources]
    rfl
  rw [hacted] at htracks hlive
  have hflushed : (manifest.replayed (written Effect.writes
      (flush clock.lamport a).effects ++ [])).liveHash path =
        (flush clock.lamport a).manifest.liveHash path := htracks.flush path
  rw [flush_manifest] at hflushed
  rw [← hlive, ← hflushed, heffects, written_append]
  rfl

theorem passEffects_liveHash (events : PassEvents)
    (hresumed : resumeUploads manifest (events.clock device (nextLamport remoteLamport
      device.lamport)) events.uploads = (es, some (resumedManifest, resumed)))
    (hfinishes : passFinishes plan manifest remoteLamport device events = true) :
    (manifest.replayed (written Effect.writes
      (passEffects plan manifest remoteLamport device events))).liveHash path =
      if ⟨path, .deleteRemote⟩ ∈ plan.actions ∧ path ∉ pinnedBy plan events.joined then none
      else (landed events.joined path).or (resumedManifest.liveHash path) := by
  have hmem : (⟨path, .deleteRemote⟩ : Action) ∈ (dropResumed plan resumed).actions ↔
      ⟨path, .deleteRemote⟩ ∈ plan.actions := by
    simp [dropResumed]
  unfold passFinishes at hfinishes
  unfold passEffects
  rw [hresumed] at hfinishes
  simp only [hresumed] at hfinishes ⊢
  rw [written_append, replayed_append, resumeUploads_replayed hresumed, apply_liveHash hfinishes]
  simp only [hmem]
  rfl

end Whole

end FileMirror
