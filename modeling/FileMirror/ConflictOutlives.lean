import FileMirror.HiddenConflict
import FileMirror.SettingAside

set_option autoImplicit false

namespace FileMirror

open Transitions

section Loop

variable {timestamp source : String} {baseline : Baseline} {r r' : Preserving} {loser : DeltaEntry}
  {file : DiskFile} {conflict : RemoteConflict} {conflicts : List (RemoteConflict × String)}

theorem preserveOne_grows (h : preserveOne timestamp baseline r conflict = some r') :
    (r'.state.deviceId = r.state.deviceId ∧ r'.state.deviceName = r.state.deviceName) ∧
      r.preserved.renamed ⊆ r'.preserved.renamed ∧
      r.preserved.relocations ⊆ r'.preserved.relocations := by
  obtain ⟨rfl, -⟩ | ⟨-, rfl⟩ | ⟨source, target, -, rfl⟩ := preserveOne_cases h
  · simp
  · simp
  · simp [DeviceState.remove]

theorem preserveLoop_grows {ended : Bool} (h : preserveLoop baseline conflicts r = (r', ended)) :
    r.preserved.renamed ⊆ r'.preserved.renamed ∧
      r.preserved.relocations ⊆ r'.preserved.relocations := by
  induction conflicts generalizing r with
  | nil =>
      cases h
      simp
  | cons c conflicts ih =>
      rw [preserveLoop] at h
      cases hone : preserveOne c.2 baseline r c.1 with
      | none =>
          rw [hone] at h
          cases h
          simp
      | some s =>
          rw [hone] at h
          obtain ⟨hrenamed, hrelocations⟩ := ih h
          obtain ⟨-, hrenamed', hrelocations'⟩ := preserveOne_grows hone
          exact ⟨List.Subset.trans hrenamed' hrenamed, List.Subset.trans hrelocations' hrelocations⟩

/-- No conflicted copy of this device goes to `source`. -/
def SparesSource (device : DeviceState) (conflicts : List (RemoteConflict × String))
    (source : String) : Prop :=
  ∀ c ∈ conflicts, c.1.loser.deviceId = device.deviceId →
    safeJoin (copyPath c.2 device.deviceName c.1.loser.path) ≠ some source

theorem SparesSource.rest {c : RemoteConflict × String}
    (h : SparesSource r.state (c :: conflicts) source)
    (hone : preserveOne c.2 baseline r c.1 = some r') : SparesSource r'.state conflicts source := by
  obtain ⟨⟨hid, hname⟩, -⟩ := preserveOne_grows hone
  intro d hd hown
  rw [hname]
  exact h d (List.mem_cons_of_mem _ hd) (hown.trans hid)

theorem preserveOne_source {c : RemoteConflict × String}
    (h : preserveOne c.2 baseline r c.1 = some r')
    (hspares : SparesSource r.state (c :: conflicts) source) :
    (r'.tree[source]? = r.tree[source]? ∧
        ∀ target, ¬ r.Renames c.2 c.1.loser source target) ∨
      r'.tree[source]? = none ∧ ∃ target, r.Renames c.2 c.1.loser source target ∧
        copyPath c.2 r.state.deviceName c.1.loser.path ∈ r'.preserved.renamed := by
  obtain ⟨rfl, -, hstays⟩ | ⟨hrelocates, rfl⟩ | ⟨other, target, hrenames, rfl⟩ :=
    preserveOne_cases h
  · exact .inl ⟨rfl, hstays source⟩
  · exact .inl ⟨rfl, hrelocates.no_rename source⟩
  · obtain ⟨file, hfile, -⟩ := hrenames.holds
    have htarget : source ≠ target := by
      rintro rfl
      exact hspares c (List.mem_cons_self ..) hrenames.own hrenames.copied
    rw [LocalTree.getElem?_rename hfile, if_neg htarget]
    by_cases hsource : source = other
    · subst hsource
      exact .inr ⟨if_pos rfl, target, hrenames, by simp⟩
    · exact .inl ⟨if_neg hsource, fun _ hr => hsource (hr.at_source hrenames.named).1⟩

theorem preserveLoop_absent {ended : Bool} (habsent : r.tree[source]? = none)
    (hspares : SparesSource r.state conflicts source)
    (h : preserveLoop baseline conflicts r = (r', ended)) : r'.tree[source]? = none := by
  induction conflicts generalizing r with
  | nil =>
      cases h
      exact habsent
  | cons c conflicts ih =>
      rw [preserveLoop] at h
      cases hone : preserveOne c.2 baseline r c.1 with
      | none =>
          rw [hone] at h
          cases h
          exact habsent
      | some s =>
          rw [hone] at h
          refine ih ?_ (hspares.rest hone) h
          rcases preserveOne_source hone hspares with ⟨hsame, -⟩ | ⟨hgone, -⟩
          · rw [hsame, habsent]
          · exact hgone

theorem preserveOne_holds (hown : loser.deviceId = r.state.deviceId)
    (hsource : safeJoin loser.path = some source) (hfile : r.tree[source]? = some file)
    (hsettled : file.settled = true) (hhash : file.contents = loser.plaintextHash)
    (hconflict : conflict.loser = loser) (h : preserveOne timestamp baseline r conflict = some r') :
    ∃ target, r.Renames timestamp conflict.loser source target := by
  subst hconflict
  cases htarget : safeJoin (copyPath timestamp r.state.deviceName conflict.loser.path) with
  | none =>
      rw [copyPath] at htarget
      simp [preserveOne, hown, hsource, hfile, DiskFile.hashStable, hsettled, hhash, htarget] at h
  | some target => exact ⟨target, hown, hsource, htarget, file, hfile, hsettled, hhash⟩

theorem preserveLoop_renames (hown : loser.deviceId = r.state.deviceId)
    (hsource : safeJoin loser.path = some source) (hfile : r.tree[source]? = some file)
    (hsettled : file.settled = true) (hhash : file.contents = loser.plaintextHash)
    (hmem : ∃ c ∈ conflicts, c.1.loser = loser) (hspares : SparesSource r.state conflicts source)
    (h : preserveLoop baseline conflicts r = (r', true)) :
    r'.tree[source]? = none ∧ ∃ v ∈ visited baseline conflicts r,
      v.1.tree[source]? = some file ∧
      (∃ target, v.1.Renames v.2.2 v.2.1.loser source target) ∧
      copyPath v.2.2 v.1.state.deviceName v.2.1.loser.path ∈ r'.preserved.renamed := by
  induction conflicts generalizing r with
  | nil =>
      obtain ⟨c, hc, -⟩ := hmem
      cases hc
  | cons c conflicts ih =>
      rw [preserveLoop] at h
      cases hone : preserveOne c.2 baseline r c.1 with
      | none =>
          rw [hone] at h
          cases h
      | some s =>
          rw [hone] at h
          rw [visited, hone]
          rcases preserveOne_source hone hspares with ⟨hsame, hstays⟩ |
            ⟨hgone, target, hrenames, hcopy⟩
          · have hlater : ∃ d ∈ conflicts, d.1.loser = loser := by
              obtain ⟨d, hd, hloser⟩ := hmem
              rcases List.mem_cons.mp hd with rfl | hd
              · obtain ⟨target, hrenames⟩ :=
                  preserveOne_holds hown hsource hfile hsettled hhash hloser hone
                exact absurd hrenames (hstays target)
              · exact ⟨d, hd, hloser⟩
            obtain ⟨⟨hid, -⟩, -⟩ := preserveOne_grows hone
            obtain ⟨hgone, v, hv, hrest⟩ := ih (hown.trans hid.symm) (hsame.trans hfile) hlater
              (hspares.rest hone) h
            exact ⟨hgone, v, List.mem_cons_of_mem _ hv, hrest⟩
          · exact ⟨preserveLoop_absent hgone (hspares.rest hone) h, _, List.mem_cons_self .., hfile,
              ⟨target, hrenames⟩, (preserveLoop_grows h).1 hcopy⟩

theorem preserveOne_evicted (hown : loser.deviceId = r.state.deviceId)
    (hsource : safeJoin loser.path = some source) (habsent : r.tree[source]? = none)
    (hevicted : evictedLoser baseline loser = true) (hconflict : conflict.loser = loser)
    (h : preserveOne timestamp baseline r conflict = some r') :
    (copyPath timestamp r.state.deviceName loser.path, loser) ∈ r'.preserved.relocations := by
  subst hconflict
  obtain ⟨-, hstays, -⟩ | ⟨-, rfl⟩ | ⟨other, target, hrenames, -⟩ := preserveOne_cases h
  · exact absurd ⟨hown, hevicted, source, hsource, habsent⟩ hstays
  · simp
  · obtain ⟨-, file, hfile, -⟩ := hrenames.at_source hsource
    rw [habsent] at hfile
    cases hfile

theorem preserveLoop_relocates {c : RemoteConflict × String}
    (hown : loser.deviceId = r.state.deviceId) (hsource : safeJoin loser.path = some source)
    (habsent : r.tree[source]? = none) (hevicted : evictedLoser baseline loser = true)
    (hmem : c ∈ conflicts) (hloser : c.1.loser = loser)
    (hspares : SparesSource r.state conflicts source)
    (h : preserveLoop baseline conflicts r = (r', true)) :
    (copyPath c.2 r.state.deviceName loser.path, loser) ∈ r'.preserved.relocations := by
  induction conflicts generalizing r with
  | nil => cases hmem
  | cons d conflicts ih =>
      rw [preserveLoop] at h
      cases hone : preserveOne d.2 baseline r d.1 with
      | none =>
          rw [hone] at h
          cases h
      | some s =>
          rw [hone] at h
          rcases List.mem_cons.mp hmem with rfl | hmem
          · exact (preserveLoop_grows h).2
              (preserveOne_evicted hown hsource habsent hevicted hloser hone)
          · obtain ⟨⟨hid, hname⟩, -⟩ := preserveOne_grows hone
            have habsent' : s.tree[source]? = none := by
              rcases preserveOne_source hone hspares with ⟨hsame, -⟩ | ⟨hgone, -⟩
              · rw [hsame, habsent]
              · exact hgone
            rw [← hname]
            exact ih (hown.trans hid.symm) habsent' hmem (hspares.rest hone) h

theorem preserveLoop_relocations {ended : Bool} {x : String × DeltaEntry}
    (h : preserveLoop baseline conflicts r = (r', ended)) (hx : x ∈ r'.preserved.relocations) :
    x ∈ r.preserved.relocations ∨ ∃ c ∈ conflicts, c.1.loser = x.2 ∧
      x.2.deviceId = r.state.deviceId ∧ evictedLoser baseline x.2 = true ∧
      copyPath c.2 r.state.deviceName x.2.path = x.1 := by
  induction conflicts generalizing r with
  | nil =>
      cases h
      exact .inl hx
  | cons c conflicts ih =>
      rw [preserveLoop] at h
      cases hone : preserveOne c.2 baseline r c.1 with
      | none =>
          rw [hone] at h
          cases h
          exact .inl hx
      | some s =>
          rw [hone] at h
          obtain ⟨⟨hid, hname⟩, -⟩ := preserveOne_grows hone
          rcases ih h with hold | ⟨d, hd, hrest⟩
          · obtain ⟨rfl, -⟩ | ⟨⟨hown, hevicted, -⟩, rfl⟩ | ⟨source, target, -, rfl⟩ :=
              preserveOne_cases hone
            · exact .inl hold
            · rcases List.mem_append.mp hold with hold | hnew
              · exact .inl hold
              · rw [List.mem_singleton] at hnew
                subst hnew
                exact .inr ⟨c, List.mem_cons_self .., rfl, hown, hevicted, rfl⟩
            · exact .inl hold
          · rw [hid, hname] at hrest
            exact .inr ⟨d, List.mem_cons_of_mem _ hd, hrest⟩

end Loop

section Plan

variable {plan : Plan} {relocations : List (String × DeltaEntry)} {copy : String}
  {l : DeltaEntry}

theorem foldl_addRelocation_hydrate {path : String}
    (h : ⟨path, .hydrate⟩ ∈ (relocations.foldl addRelocation plan).actions) :
    ⟨path, .hydrate⟩ ∈ plan.actions ∧ ∀ x ∈ relocations, x.2.path ≠ path := by
  induction relocations generalizing plan with
  | nil => exact ⟨h, fun _ hx => absurd hx List.not_mem_nil⟩
  | cons x relocations ih =>
      obtain ⟨hmem, hrest⟩ := ih h
      simp only [addRelocation, List.mem_append, List.mem_map, List.mem_singleton,
        Action.mk.injEq, reduceCtorEq, and_false, or_false] at hmem
      obtain ⟨a, ha, heq⟩ := hmem
      split_ifs at heq with hhit
      · cases heq
      · subst heq
        refine ⟨ha, List.forall_mem_cons.mpr ⟨fun hpath => hhit ⟨hpath.symm, rfl⟩, hrest⟩⟩

theorem foldl_addRelocation_relocations (h : (copy, l) ∈ relocations) :
    ⟨copy, .relocate⟩ ∈ (relocations.foldl addRelocation plan).actions ∧
      ∃ l', (copy, l') ∈ relocations ∧
        (relocations.foldl addRelocation plan).relocations[copy]? = some l' := by
  induction relocations using List.reverseRecOn with
  | nil => cases h
  | append_singleton relocations x ih =>
      rw [List.foldl_append, List.foldl_cons, List.foldl_nil]
      by_cases hx : x.1 = copy
      · refine ⟨by simp [addRelocation, hx], x.2, ?_, ?_⟩
        · simp [← hx]
        · simp [addRelocation, hx]
      · rcases List.mem_append.mp h with h | h
        · obtain ⟨haction, l', hl', hfound⟩ := ih h
          refine ⟨?_, l', List.mem_append_left _ hl', ?_⟩
          · simp only [addRelocation, List.mem_append, List.mem_map]
            exact .inl ⟨_, haction, if_neg (by simp)⟩
          · simp only [addRelocation, StringMap.getElem?_insert, if_neg hx, hfound]
        · rw [List.mem_singleton] at h
          exact absurd (congrArg Prod.fst h).symm hx

end Plan

/-- The device still holds the losing content, or has evicted the path at that version. -/
def World.HoldsLoser (w : World) (loser : DeltaEntry) (source : String) : Prop :=
  (∃ file, w.tree[source]? = some file ∧ file.settled = true ∧
    file.contents = loser.plaintextHash) ∨
  w.tree[source]? = none ∧ evictedLoser w.device.files loser = true

/-- No conflicted copy of the pass goes to the loser's own path, or gives the name of the loser's
copy to another evicted content. -/
def CopiesApart (device : DeviceState) (conflicts : List (RemoteConflict × String))
    (loser : DeltaEntry) (source : String) : Prop :=
  SparesSource device conflicts source ∧
    ∀ c ∈ conflicts, ∀ d ∈ conflicts, d.1.loser = loser →
      c.1.loser.deviceId = device.deviceId → evictedLoser device.files c.1.loser = true →
      copyPath c.2 device.deviceName c.1.loser.path = copyPath d.2 device.deviceName loser.path →
      c.1.loser.plaintextHash = loser.plaintextHash

/-- The file has been renamed and nothing stands at its path when the plan is applied, or else the
plan relocates the evicted content and does not fetch another one in its place. -/
def SetsAside (conflicts : List (RemoteConflict × String)) (w : World) (loser : DeltaEntry)
    (source : String) (pass : PassPlan) (after : World) : Prop :=
  let r := (preserveConflictLosers conflicts w.tree w.device).1
  (after.tree[source]? = none ∧
    ∃ v ∈ visited w.device.files conflicts ⟨w.tree, w.device, ⟨[], []⟩⟩,
      v.1.tree[source]? = w.tree[source]? ∧
      (∃ target, v.1.Renames v.2.2 v.2.1.loser source target) ∧
      copyPath v.2.2 v.1.state.deviceName v.2.1.loser.path ∈ r.preserved.renamed) ∨
  ((∃ copy l, ⟨copy, .relocate⟩ ∈ pass.plan.actions ∧ pass.plan.relocations[copy]? = some l ∧
      l.plaintextHash = loser.plaintextHash) ∧
    ⟨loser.path, .hydrate⟩ ∉ pass.plan.actions)

theorem foldl_erase_absent {tree : LocalTree} {source : String} {paths : List String}
    (h : tree[source]? = none) :
    (paths.foldl (fun tree path => tree.erase (stubRel path)) tree)[source]? = none := by
  induction paths generalizing tree with
  | nil => exact h
  | cons path paths ih =>
      apply ih
      rw [StringMap.getElem?_erase, h, ite_self]

section Pass

variable {options : PassOptions} {utc : ℕ → String} {snapshot : Manifest}
  {deltas : List DeltaEntry} {w after : World} {pass : PassPlan} {loser : DeltaEntry}
  {source : String}

theorem planPass_setsAside
    (hpass : planPass options utc snapshot deltas w = some (pass, after))
    (hreports : ∃ c ∈ (mergeDeltas snapshot deltas).conflicts, c.loser = loser)
    (hown : loser.deviceId = w.device.deviceId) (hsource : safeJoin loser.path = some source)
    (hholds : w.HoldsLoser loser source)
    (hapart : CopiesApart w.device (stamped utc (mergeDeltas snapshot deltas)) loser source) :
    SetsAside (stamped utc (mergeDeltas snapshot deltas)) w loser source pass after := by
  have hmem : ∃ c ∈ stamped utc (mergeDeltas snapshot deltas), c.1.loser = loser := by
    obtain ⟨c, hc, hloser⟩ := hreports
    obtain ⟨n, hn⟩ := List.mem_iff_getElem?.mp hc
    exact ⟨_, List.mem_map_of_mem (List.mk_mem_zipIdx_iff_getElem?.mpr hn), hloser⟩
  obtain ⟨preserved, hpreserved, rfl, rfl⟩ := planPass_eq_some_iff.mp hpass
  have hloop : preserveLoop w.device.files (stamped utc (mergeDeltas snapshot deltas))
      ⟨w.tree, w.device, ⟨[], []⟩⟩ = (preserved, true) := hpreserved
  unfold SetsAside preserveConflictLosers
  rw [hloop]
  rcases hholds with ⟨file, hfile, hsettled, hhash⟩ | ⟨habsent, hevicted⟩
  · left
    obtain ⟨hgone, v, hv, hfound, hrest⟩ :=
      preserveLoop_renames hown hsource hfile hsettled hhash hmem hapart.1 hloop
    exact ⟨foldl_erase_absent hgone, v, hv, hfound.trans hfile.symm, hrest⟩
  · right
    obtain ⟨d, hd, hloser⟩ := hmem
    have hasked := preserveLoop_relocates hown hsource habsent hevicted hd hloser hapart.1 hloop
    refine ⟨⟨copyPath d.2 w.device.deviceName loser.path, ?_⟩, ?_⟩
    · obtain ⟨haction, l, hl, hfound⟩ := foldl_addRelocation_relocations hasked
      refine ⟨l, mem_sortActions.mpr haction, hfound, ?_⟩
      rcases preserveLoop_relocations hloop hl with hold | ⟨c, hc, rfl, hsame, hstub, hcopy⟩
      · cases hold
      · exact hapart.2 c hc d hd hloser hsame hstub hcopy
    · intro hhydrate
      exact (foldl_addRelocation_hydrate (mem_sortActions.mp hhydrate)).2 _ hasked rfl

end Pass

/-- Nothing that the bucket starts with hides the loser. -/
structure Site.Shows {ι : Type} (s : Site ι) (loser : DeltaEntry) : Prop where
  puts : ∀ d ∈ archived s.puts, Unhidden loser d
  snapshots : ∀ (g : ℕ) (object : SnapshotObject) (m : Manifest),
    s.bucket.snapshots[g]? = some object → object.open? g = some m → m.Unhides loser

theorem Site.Initial.sights {ι : Type} {s : Site ι} {loser : DeltaEntry} (h : s.Initial)
    (hshows : s.Shows loser) : s.Sights loser where
  invariant := h.invariant
  bucket := by
    refine ⟨hshows.puts, hshows.snapshots, fun hput m _ => .inl ?_⟩
    obtain ⟨key, ds, hds, hmem⟩ := mem_archived.mp hput
    obtain ⟨object, hobject, hpayload⟩ := (h.puts key ds).mp hds
    exact ⟨key, object, ds, hobject, hpayload, hmem⟩
  devices := by
    intro i
    unfold Device.Sights
    rw [h.idle i]
    trivial

/-- In a run that keeps the loser in sight, the losing device's next read reports the conflict, and
its pass sets the losing version aside. -/
theorem conflict_outlives_compaction {ι : Type} [DecidableEq ι] (s t : Site ι)
    (labels : List (Label ι)) (loser winner : DeltaEntry) (i : ι) (f : Folded)
    (hinit : s.Initial) (hshows : s.Shows loser)
    (hrun : Runs Site.step (Site.KeepsInSight loser) s labels t)
    (hread : (t.devices i).phase = .folded f) (hloser : loser ∈ t.since i)
    (hwinner : winner ∈ t.since i) (hpath : winner.path = loser.path)
    (habove : winnerKey loser < winnerKey winner) :
    ∃ deltas, f.merged = mergeDeltas f.snapshot.manifest deltas ∧
      ∀ options utc w pass after source,
        planPass options utc f.snapshot.manifest deltas w = some (pass, after) →
        loser.deviceId = w.device.deviceId → safeJoin loser.path = some source →
        w.HoldsLoser loser source → CopiesApart w.device (stamped utc f.merged) loser source →
        SetsAside (stamped utc f.merged) w loser source pass after := by
  have hstep : ∀ (s : Site ι) l t, Site.Sights s loser → s.KeepsInSight loser l → s.step l = some t →
      Site.Sights t loser := fun _ _ _ hs hguard hstep => hs.step hguard hstep
  have h : t.Sights loser := hrun.invariant (hinit.sights hshows) hstep
  have htracks := h.invariant.tracks i
  have hsights := h.devices i
  unfold Device.Tracks at htracks
  unfold Device.Sights at hsights
  rw [hread] at htracks hsights
  obtain ⟨deltas, hmerged, hunhidden, hmeets⟩ := hsights.merged
  have hreports : ∃ c ∈ (mergeDeltas f.snapshot.manifest deltas).conflicts, c.loser = loser := by
    apply mergeDeltas_reports hsights.keysMatch hsights.snapshot hunhidden (hmeets hloser)
    obtain ⟨e, he, hle⟩ := htracks.2.since winner hwinner
    rw [← hmerged, ← hpath]
    exact ⟨e, he, lt_of_lt_of_le habove hle⟩
  refine ⟨deltas, hmerged, fun options utc w pass after source hpass hown hsource hholds => ?_⟩
  rw [hmerged]
  exact planPass_setsAside hpass hreports hown hsource hholds

def losingDelta : DeltaEntry := .sample "a" "phone" 1 10 none

def winningDelta : DeltaEntry := .sample "a" "tablet" 2 11 none

/-- The device that logged the losing delta and still holds its content. -/
def losingDevice : World where
  device := ⟨"phone", "phone", (∅ : Baseline).insert "a" (.synced "a" 1 10), ∅, 1, 0⟩
  tree := (∅ : LocalTree).insert "a" ⟨⟨1, 0⟩, 10, true, none⟩
  log := ∅

def plainOptions : PassOptions := ⟨fun _ => false, ⟨[], [], false⟩, []⟩

def compactAll (keys : List String) : List (Label Role) :=
  [.device .compactor (.start (.compact 0 0)), request .compactor, request .compactor] ++
  keys.map (fun key => .device .compactor (.fetch key)) ++
  List.replicate (7 + keys.length) (request .compactor)

def readAll (keys : List String) : List (Label Role) :=
  [.device .reader (.start .read), request .reader, request .reader] ++
  keys.map (fun key => .device .reader (.fetch key)) ++ [request .reader]

/-- The loser is folded and pruned before the winner is logged. -/
def compactedBetween : List (Label Role) :=
  .logDelta "k" [losingDelta] (some 0) :: compactAll ["k"] ++
  .logDelta "l" [winningDelta] (some 0) :: readAll ["l"]

/-- Both are folded and pruned before the losing device reads. -/
def compactedBoth : List (Label Role) :=
  .logDelta "k" [losingDelta] (some 0) :: .logDelta "l" [winningDelta] (some 0) ::
  compactAll ["k", "l"] ++ readAll []

def reported (t : Site Role) : Option (List RemoteConflict) :=
  match (t.devices .reader).phase with
  | .folded f => some f.merged.conflicts
  | _ => none

/-- What a finished read found in the log, and what the losing device plans when that is nothing. -/
def losingPlan (t : Site Role) : Option (List String × List Action) :=
  match (t.devices .reader).phase with
  | .folded f => (planPass plainOptions (fun _ => "now") f.snapshot.manifest [] losingDevice).map
      fun pass => (f.metas.map Prod.fst, pass.1.plan.actions)
  | _ => none

/-- A check that implies `KeepsInSight`. -/
def Site.showing (loser : DeltaEntry) (s : Site Role) : Label Role → Bool
  | .device i e => s.calm (.device i e) &&
      ((s.devices i).putsManifest e).all (fun m => m[loser.path]? == some loser) &&
      ((s.devices i).deletesDelta e == none ||
        (s.bucket.openBase 0).all fun m => m[loser.path]? == some loser)
  | .logDelta key deltas stamp => s.calm (.logDelta key deltas stamp) &&
      deltas.all fun d => decide (Unhidden loser d)

theorem Site.showing_keepsInSight (loser : DeltaEntry) (s : Site Role) (l : Label Role)
    (h : s.showing loser l = true) : s.KeepsInSight loser l := by
  cases l with
  | logDelta key deltas stamp =>
      simp only [Site.showing, Bool.and_eq_true, List.all_eq_true, decide_eq_true_eq] at h
      exact ⟨s.calm_undisturbed _ h.1, h.2⟩
  | device i e =>
      simp only [Site.showing, Bool.and_eq_true, Option.all_eq_true, beq_iff_eq] at h
      obtain ⟨⟨hcalm, hputs⟩, hdeletes⟩ := h
      refine ⟨s.calm_undisturbed _ hcalm, fun _ => ⟨fun m hm => .inr (hputs m hm), ?_⟩⟩
      intro key object deltas hkey _ _ _
      rw [hkey] at hdeletes
      simp only [Bool.or_eq_true, beq_iff_eq, reduceCtorEq, false_or, Option.all_eq_true] at hdeletes
      refine ⟨fun m hm => hdeletes m ((Bucket.openBase_eq_some fun _ _ => Nat.zero_le _).mpr hm), ?_⟩
      intro j m hmid
      have hj := hmid.midRead
      simp only [Site.calm, Bool.and_eq_true] at hcalm
      have hread := hcalm.2
      rw [hkey] at hread
      cases j <;> simp [hj] at hread

theorem planPass_isSome {options : PassOptions} {utc : ℕ → String} {snapshot : Manifest}
    {deltas : List DeltaEntry} {w : World}
    (h : (preserveConflictLosers (stamped utc (mergeDeltas snapshot deltas)) w.tree
      w.device).2 = true) :
    ∃ pass after, planPass options utc snapshot deltas w = some (pass, after) := by
  unfold stamped at h
  cases hpreserved : preserveConflictLosers ((mergeDeltas snapshot deltas).conflicts.zipIdx.map
      fun c => (c.1, utc c.2)) w.tree w.device with
  | mk preserved ended =>
      rw [hpreserved] at h
      cases h
      exact ⟨_, _, by rw [planPass, hpreserved]⟩

theorem conflict_outlives_compaction_between :
    ∃ t f deltas pass after,
      execute (checked (Site.showing losingDelta) Site.step) Site.empty compactedBetween = some t ∧
      (t.devices .reader).phase = .folded f ∧
      planPass plainOptions (fun _ => "now") f.snapshot.manifest deltas losingDevice =
        some (pass, after) ∧
      SetsAside (stamped (fun _ => "now") f.merged) losingDevice losingDelta "a" pass after := by
  have hexecute : (execute (checked (Site.showing losingDelta) Site.step) Site.empty
      compactedBetween).map (fun t => (t.since .reader, reported t)) =
        some ([winningDelta, losingDelta], some [⟨winningDelta, losingDelta⟩]) := by
    decide +kernel
  obtain ⟨t, ht, hpair⟩ := Option.map_eq_some_iff.mp hexecute
  obtain ⟨hsince, hreported⟩ := Prod.mk.inj hpair
  obtain ⟨f, hf, hconflicts⟩ : ∃ f, (t.devices .reader).phase = .folded f ∧
      f.merged.conflicts = [⟨winningDelta, losingDelta⟩] := by
    unfold reported at hreported
    split at hreported
    · exact ⟨_, ‹_›, Option.some.inj hreported⟩
    · cases hreported
  have hshows : Site.empty.Shows losingDelta :=
    ⟨fun d hd => by simp [Site.empty, archived] at hd, fun g object m h => by
      simp [Site.empty] at h⟩
  obtain ⟨deltas, hmerged, hsets⟩ := conflict_outlives_compaction Site.empty t compactedBetween
    losingDelta winningDelta .reader f Site.initial_empty hshows
    (checked_runs (Site.showing_keepsInSight losingDelta) ht) hf (by simp [hsince])
    (by simp [hsince]) rfl (by decide +kernel)
  have hstamped : stamped (fun _ => "now") f.merged = [(⟨winningDelta, losingDelta⟩, "now")] := by
    simp [stamped, hconflicts]
  obtain ⟨pass, after, hpass⟩ : ∃ pass after, planPass plainOptions (fun _ => "now")
      f.snapshot.manifest deltas losingDevice = some (pass, after) := by
    apply planPass_isSome
    rw [← hmerged, hstamped]
    decide +kernel
  refine ⟨t, f, deltas, pass, after, ht, hf, hpass, hsets _ _ _ _ _ _ hpass rfl ?_ ?_ ?_⟩
  · decide +kernel
  · exact .inl ⟨_, rfl, rfl, rfl⟩
  · rw [hstamped]
    constructor
    · simp only [SparesSource, List.forall_mem_singleton]
      decide +kernel
    · simp

/-- The losing device reads the winner alone, and downloads it over the losing file. -/
theorem conflict_hidden_by_compaction :
    isConflict winningDelta losingDelta = true ∧
    (execute Site.step Site.empty compactedBoth).map (fun t => (t.since .reader, reported t)) =
      some ([winningDelta, losingDelta], some []) ∧
    (execute Site.step Site.empty compactedBoth).map losingPlan =
      some (some ([], [⟨"a", .download⟩])) := by
  refine ⟨?_, ?_, ?_⟩
  · decide +kernel
  · decide +kernel
  · decide +kernel

end FileMirror
