import FileMirror.BaselineBehindLog
import FileMirror.Transitions
import Mathlib.Logic.Function.Basic

set_option autoImplicit false

namespace FileMirror

open LastWriter Transitions WriteAhead

/-- `d` is current, and without it `e` would be, a live version of another content. -/
structure Supersedes (snapshot : Manifest) (deltas : List DeltaEntry) (d e : DeltaEntry) : Prop where
  keysMatch : snapshot.KeysMatch
  read : d ∈ candidates snapshot deltas d.path
  version : e ∈ candidates snapshot deltas d.path
  live : e.deleted = false
  content : e.plaintextHash ≠ d.plaintextHash
  wins : winnerKey e < winnerKey d
  next : ∀ c ∈ candidates snapshot deltas d.path, c = d ∨ winnerKey c ≤ winnerKey e

section Merges

variable {o : Option DeltaEntry} {ds other : List DeltaEntry} {d e : DeltaEntry} {p : String}
  {snapshot : Manifest}

theorem conflictsFrom_meet (hpath : ∀ c ∈ o.toList ++ ds, c.path = p) (hd : d ∈ o.toList ++ ds)
    (he : e ∈ o.toList ++ ds) (hwins : winnerKey e < winnerKey d)
    (hnext : ∀ c ∈ o.toList ++ ds, c = d ∨ winnerKey c ≤ winnerKey e)
    (hconflict : isConflict d e = true) : ⟨d, e⟩ ∈ conflictsFrom o ds := by
  induction ds generalizing o with
  | nil =>
      rw [List.append_nil, Option.mem_toList] at hd he
      rw [hd, Option.some.injEq] at he
      exact absurd (he ▸ hwins) (lt_irrefl _)
  | cons c ds ih =>
      rw [conflictsFrom, List.mem_append]
      cases o with
      | none => exact .inr (ih hpath hd he hnext)
      | some x =>
          simp only [Option.toList_some, List.singleton_append, List.forall_mem_cons] at hpath hnext
          obtain ⟨hx, hc, hds⟩ := hnext
          obtain ⟨hpathx, hpathc, hpaths⟩ := hpath
          simp only [Option.toList_some, List.singleton_append, List.mem_cons] at hd he
          by_cases hlt : winnerKey x < winnerKey c
          · -- `x` goes, which is not the greatest
            have hxd : d ≠ x := by
              rintro rfl
              rcases hc with rfl | hc
              · exact lt_irrefl _ hlt
              · exact absurd (hlt.trans_le hc) hwins.asymm
            by_cases hex : e = x ∧ e ≠ c ∧ e ∉ ds
            · obtain ⟨rfl, -, -⟩ := hex
              have hcd : c = d := hc.resolve_right (not_le.mpr hlt)
              subst hcd
              rw [conflictsOf, if_pos hconflict, if_pos hlt]
              exact .inl (List.mem_singleton_self _)
            · rw [keep, if_pos hlt]
              refine .inr (ih ?_ ?_ ?_ ?_)
              · exact List.forall_mem_cons.mpr ⟨hpathc, hpaths⟩
              · exact List.mem_cons.mpr (hd.resolve_left hxd)
              · refine List.mem_cons.mpr ?_
                tauto
              · exact List.forall_mem_cons.mpr ⟨hc, hds⟩
          · have hle : winnerKey c ≤ winnerKey x := not_lt.mp hlt
            have hdx : d = x ∨ d ∈ ds := by
              rcases hd with rfl | rfl | hd
              · exact .inl rfl
              · rcases hx with rfl | hx
                · exact .inl rfl
                · exact absurd (hle.trans hx) (not_le.mpr hwins)
              · exact .inr hd
            by_cases hec : e = c ∧ e ≠ x ∧ e ∉ ds
            · obtain ⟨rfl, hne, -⟩ := hec
              have hxd : x = d := hx.resolve_right fun hxe => hne
                (winnerKey_separates e x (hpathc.trans hpathx.symm) (le_antisymm hle hxe))
              subst hxd
              rw [conflictsOf, if_pos (isConflict_comm x e ▸ hconflict), if_neg hlt]
              exact .inl (List.mem_singleton_self _)
            · rw [keep, if_neg hlt]
              refine .inr (ih ?_ ?_ ?_ ?_)
              · exact List.forall_mem_cons.mpr ⟨hpathx, hpaths⟩
              · exact List.mem_cons.mpr hdx
              · refine List.mem_cons.mpr ?_
                tauto
              · exact List.forall_mem_cons.mpr ⟨hx, hds⟩

theorem Supersedes.congr (h : Supersedes snapshot ds d e) (hmem : ∀ c, c ∈ other ↔ c ∈ ds) :
    Supersedes snapshot other d e := by
  have hsame : ∀ c, c ∈ candidates snapshot other d.path ↔ c ∈ candidates snapshot ds d.path := by
    intro c
    rw [mem_candidates, mem_candidates, hmem]
  exact ⟨h.keysMatch, (hsame d).mpr h.read, (hsame e).mpr h.version, h.live, h.content, h.wins,
    fun c hc => h.next c ((hsame c).mp hc)⟩

theorem Supersedes.reported_iff (h : Supersedes snapshot ds d e) :
    ⟨d, e⟩ ∈ (mergeDeltas snapshot ds).conflicts ↔
      d.baseHash ≠ some e.plaintextHash ∧ e.baseHash ≠ some d.plaintextHash := by
  have hpaths : ∀ c ∈ candidates snapshot ds d.path, c.path = d.path := fun c hc =>
    (mem_candidates.mp hc).elim (h.keysMatch _ _) And.left
  have hconflict : isConflict d e = true ↔
      d.baseHash ≠ some e.plaintextHash ∧ e.baseHash ≠ some d.plaintextHash := by
    rw [← Bool.not_eq_false, isConflict_eq_false, not_or, not_or]
    exact and_iff_right h.content.symm
  have hpath : decide ((⟨d, e⟩ : RemoteConflict).loser.path = d.path) = true :=
    decide_eq_true (hpaths e h.version)
  rw [← hconflict]
  constructor
  · intro hmem
    have hfrom : (⟨d, e⟩ : RemoteConflict) ∈ (mergeDeltas snapshot ds).conflicts.filter
        (·.loser.path = d.path) := List.mem_filter.mpr ⟨hmem, hpath⟩
    rw [mergeDeltas_conflicts_of_path h.keysMatch] at hfrom
    exact (mem_conflictsFrom hfrom).1
  · intro hreal
    have hmeet := conflictsFrom_meet hpaths h.read h.version h.wins h.next hreal
    rw [← mergeDeltas_conflicts_of_path h.keysMatch] at hmeet
    exact (List.mem_filter.mp hmeet).1

end Merges

/-- A delta as it was logged: with the hash that its device had last synced for the path when the
pass began, and what the pass had found there. -/
structure Descent where
  delta : DeltaEntry
  synced : Option ContentHash
  found : Option DeltaEntry
  deriving DecidableEq

structure PlannedPass where
  pass : PassPlan
  baseline : Baseline

/-- The devices and the remote state; `record` keeps the live deltas the passes have logged. -/
structure Fleet (ι : Type) where
  device : ι → DeviceState
  tree : ι → LocalTree
  planned : ι → Option PlannedPass
  snapshot : Manifest
  log : StringMap (List DeltaEntry)
  record : List Descent

/-- `own` is any change of a device's files and rows: an edit, a moved placeholder, an upload or
a repair that begins or is interrupted, an eviction. `remote` is any change of the remote state by
a compaction or a program of another kind. -/
inductive FleetLabel (ι : Type) where
  | own (i : ι) (device : DeviceState) (tree : LocalTree)
  | remote (snapshot : Manifest) (log : StringMap (List DeltaEntry))
  | plan (i : ι) (options : PassOptions) (utc : ℕ → String)
  | finish (i : ι) (events : PassEvents) (n : ℕ)

def Outcome.fits (kind : ActionKind) : Outcome → Bool
  | .uploaded _ => kind = .upload
  | .relocated _ => kind = .relocate
  | .downloaded _ => kind = .download ∨ kind = .hydrate
  | .deferred => kind = .upload
  | .failed _ => true

def PassEvents.fits (events : PassEvents) (plan : Plan) (device : DeviceState) : Bool :=
  (events.uploads.map Prod.fst = device.uploads.values) &&
    events.joined.all fun joined =>
      joined.1 ∈ (dropResumed plan events.resumes).actions && joined.2.fits joined.1.kind

namespace Fleet

variable {ι : Type}

def world (s : Fleet ι) (i : ι) : World := ⟨s.device i, s.tree i, s.log⟩

def logged (s : Fleet ι) : List DeltaEntry := s.log.toList.flatMap Prod.snd

def settle [DecidableEq ι] (s : Fleet ι) (i : ι) (w : World) : Fleet ι :=
  { s with device := Function.update s.device i w.device, tree := Function.update s.tree i w.tree,
           log := w.log }

def performs (s : Fleet ι) (i : ι) (p : PlannedPass) (events : PassEvents) (n : ℕ) : List Effect :=
  (passEffects p.pass.plan p.pass.manifest p.pass.remoteLamport (s.device i) events).take n

def descents (p : PlannedPass) (es : List Effect) : List Descent :=
  ((written Effect.writes es).filter fun d => !d.deleted).map fun d =>
    ⟨d, p.baseline.lastSynced d.path, p.pass.manifest[d.path]?⟩

def step [DecidableEq ι] (s : Fleet ι) : FleetLabel ι → Option (Fleet ι)
  | .own i device tree => some (s.settle i ⟨device, tree, s.log⟩)
  | .remote snapshot log => some { s with snapshot, log }
  | .plan i options utc =>
      (planPass options utc s.snapshot (s.world i).logged (s.world i)).map fun planned =>
        { s.settle i planned.2 with
          planned := Function.update s.planned i (some ⟨planned.1, (s.device i).files⟩) }
  | .finish i events n =>
      match s.planned i with
      | none => none
      | some p =>
          if events.fits p.pass.plan (s.device i) then
            let es := s.performs i p events n
            some { s.settle i (es.foldl (World.run events.unix) (s.world i)) with
                   planned := Function.update s.planned i none
                   record := s.record ++ descents p es }
          else none

end Fleet

def PlannedPass.Synced (p : PlannedPass) (path : String) : Prop :=
  p.pass.manifest.liveHash path = none ∨
    p.pass.manifest.liveHash path = p.baseline.lastSynced path

instance (p : PlannedPass) (path : String) : Decidable (p.Synced path) :=
  inferInstanceAs (Decidable (_ ∨ _))

/-- The pass resumes no upload of a path, and relocates nothing onto one, whose live remote version
its device has not synced, and it sends no path's bytes twice. -/
def PlannedPass.Safe (p : PlannedPass) (events : PassEvents) : Prop :=
  (∀ path ∈ events.resumes, p.Synced path) ∧
  (∀ action ∈ p.pass.plan.actions, action.kind = .relocate → p.Synced action.path) ∧
  events.sends.Nodup

instance (p : PlannedPass) (events : PassEvents) : Decidable (p.Safe events) :=
  inferInstanceAs (Decidable (_ ∧ _ ∧ _))

def Fleet.Safe {ι : Type} (s : Fleet ι) : FleetLabel ι → Prop
  | .finish i events _ => ∀ p ∈ s.planned i, p.Safe events
  | _ => True

/-- The delta descends from what its device had synced, or from nothing, or from a tombstone; and
no live version that the device had not synced stood in its place. -/
structure Descent.Sound (r : Descent) : Prop where
  base : r.delta.baseHash = none ∨ r.delta.baseHash = r.synced ∨
    ∃ e, r.found = some e ∧ e.deleted = true ∧ r.delta.baseHash = some e.plaintextHash
  found : ∀ e, r.found = some e → e.deleted = false → r.synced = some e.plaintextHash

/-- The delta was written over a tombstone, and `e` brings the content back that this had deleted. -/
def Descent.Revives (r : Descent) (e : DeltaEntry) : Prop :=
  ∃ tomb, r.found = some tomb ∧ tomb.deleted = true ∧ r.delta.baseHash = some tomb.plaintextHash ∧
    tomb.plaintextHash = e.plaintextHash

/-- The delta goes back to the content that `e` was made from. -/
def Descent.Reverts (r : Descent) (e : DeltaEntry) : Prop :=
  e.baseHash = some r.delta.plaintextHash

/-- Every version that the delta supersedes and its device had not synced is reported, but for one
that it revives or reverts. -/
def Fleet.Reports {ι : Type} (s : Fleet ι) (r : Descent) : Prop :=
  ∀ e deltas, Supersedes s.snapshot s.logged r.delta e → r.synced ≠ some e.plaintextHash →
    (∀ d, d ∈ deltas ↔ d ∈ s.logged) →
      (⟨r.delta, e⟩ ∈ (mergeDeltas s.snapshot deltas).conflicts ↔ ¬ r.Revives e ∧ ¬ r.Reverts e)

theorem Descent.Sound.reports {ι : Type} {s : Fleet ι} {r : Descent} (h : r.Sound) :
    s.Reports r := by
  intro e deltas hover hsynced hmem
  rw [(hover.congr hmem).reported_iff]
  refine and_congr_left fun _ => not_congr ⟨fun hbase => ?_, ?_⟩
  · rcases h.base with hnone | hsame | ⟨tomb, htomb, hdeleted, hhash⟩
    · rw [hnone] at hbase
      cases hbase
    · exact absurd (hsame.symm.trans hbase) hsynced
    · exact ⟨tomb, htomb, hdeleted, hhash, Option.some.inj (hhash.symm.trans hbase)⟩
  · rintro ⟨tomb, -, -, hhash, hsame⟩
    rw [hhash, hsame]

/-- The plan comes from a merge and a baseline that had no rows but those of `p.baseline`. -/
def PlannedPass.Made (p : PlannedPass) : Prop :=
  ∃ options merged preserved, p.pass = planFrom options merged preserved ∧
    ∀ path hash, preserved.state.files.lastSynced path = some hash →
      p.baseline.lastSynced path = some hash

theorem planPass_made {options : PassOptions} {utc : ℕ → String} {snapshot : Manifest}
    {deltas : List DeltaEntry} {w t : World} {pass : PassPlan}
    (h : planPass options utc snapshot deltas w = some (pass, t)) :
    PlannedPass.Made ⟨pass, w.device.files⟩ := by
  obtain ⟨preserved, hpreserved, rfl, rfl⟩ := planPass_eq_some_iff.mp h
  unfold preserveConflictLosers at hpreserved
  refine ⟨_, _, preserved, rfl, fun path hash hsynced => ?_⟩
  obtain ⟨row, hrow, hhash⟩ := Option.bind_eq_some_iff.mp hsynced
  have hkept : w.device.files[path]? = some row := by
    have hloop := hrow
    rw [show preserved = _ from (congrArg Prod.fst hpreserved).symm] at hloop
    exact preserveLoop_row hloop
  exact Option.bind_eq_some_iff.mpr ⟨row, hkept, hhash⟩

namespace PlannedPass

variable {p : PlannedPass} {events : PassEvents} {device : DeviceState} {path : String}

theorem Made.upload (h : p.Made) (hupload : ⟨path, .upload⟩ ∈ p.pass.plan.actions) :
    p.Synced path := by
  obtain ⟨options, merged, preserved, hpass, hbaseline⟩ := h
  rw [hpass] at hupload
  obtain ⟨view, hrelocate | hplanned | ⟨hupdate, -⟩⟩ := planFrom_actions hupload
  · cases hrelocate
  · obtain ⟨hash, hlocal⟩ := planPath_upload hplanned
    have hkinds := planPath_local_kinds hlocal hplanned
    have hremote : merged.manifest.liveHash path = preserved.state.files.lastSynced path := by
      simpa using hkinds
    unfold Synced
    rw [hpass]
    change merged.manifest.liveHash path = none ∨ merged.manifest.liveHash path = _
    cases hlive : merged.manifest.liveHash path with
    | none => exact .inl rfl
    | some live => exact .inr (hbaseline path live (hremote ▸ hlive)).symm
  · cases hupdate

theorem Made.synced (h : p.Made) (hfits : events.fits p.pass.plan device = true)
    (hsafe : p.Safe events) {r : UploadResult} (hsent : events.Sent path r) : p.Synced path := by
  obtain ⟨hresumes, hrelocates, -⟩ := hsafe
  simp only [PassEvents.fits, Bool.and_eq_true, List.all_eq_true, decide_eq_true_eq] at hfits
  obtain ⟨-, hjoined⟩ := hfits
  have hdrop : ∀ a ∈ (dropResumed p.pass.plan events.resumes).actions, a ∈ p.pass.plan.actions :=
    fun a ha => List.mem_of_mem_filter ha
  rcases hsent with ⟨action, hmem | hmem, rfl⟩ | ⟨upload, hmem, rfl⟩
  · obtain ⟨haction, hkind⟩ := hjoined _ hmem
    obtain ⟨path, kind⟩ := action
    simp only [Outcome.fits, decide_eq_true_eq] at hkind
    subst hkind
    exact h.upload (hdrop _ haction)
  · obtain ⟨haction, hkind⟩ := hjoined _ hmem
    simp only [Outcome.fits, decide_eq_true_eq] at hkind
    exact hrelocates action (hdrop _ haction) hkind
  · exact hresumes _ (List.mem_flatMap.mpr ⟨_, hmem, List.mem_singleton_self _⟩)

theorem Synced.sound {p : PlannedPass} {d : DeltaEntry} (h : p.Synced d.path)
    (hbase : ∀ hash, d.baseHash = some hash →
      ∃ e, p.pass.manifest[d.path]? = some e ∧ e.plaintextHash = hash) :
    Descent.Sound ⟨d, p.baseline.lastSynced d.path, p.pass.manifest[d.path]?⟩ := by
  have hlive : ∀ e, p.pass.manifest[d.path]? = some e → e.deleted = false →
      p.baseline.lastSynced d.path = some e.plaintextHash := by
    intro e he hdeleted
    have hhash : p.pass.manifest.liveHash d.path = some e.plaintextHash := by
      simp [Manifest.liveHash, he, hdeleted]
    rcases h with hnone | hsynced
    · rw [hhash] at hnone
      cases hnone
    · exact hsynced.symm.trans hhash
  refine ⟨?_, hlive⟩
  cases hd : d.baseHash with
  | none => exact .inl rfl
  | some hash =>
      obtain ⟨e, he, rfl⟩ := hbase hash hd
      cases hdeleted : e.deleted with
      | false => exact .inr (.inl (hlive e he hdeleted).symm)
      | true => exact .inr (.inr ⟨e, he, hdeleted, rfl⟩)

end PlannedPass

namespace Fleet

variable {ι : Type}

structure Invariant (s : Fleet ι) : Prop where
  made : ∀ i p, s.planned i = some p → p.Made
  record : ∀ r ∈ s.record, r.Sound

theorem descents_sound {s : Fleet ι} {i : ι} {p : PlannedPass} {events : PassEvents} {n : ℕ}
    (hmade : p.Made) (hfits : events.fits p.pass.plan (s.device i) = true)
    (hsafe : p.Safe events) {r : Descent} (hr : r ∈ descents p (s.performs i p events n)) :
    r.Sound := by
  obtain ⟨d, hd, rfl⟩ := List.mem_map.mp hr
  obtain ⟨hwritten, hlive⟩ := List.mem_filter.mp hd
  rw [Bool.not_eq_true'] at hlive
  obtain ⟨known, hsub, hknown⟩ := passEffects_logged p.pass.plan p.pass.manifest events
    p.pass.remoteLamport (s.device i)
  have htaken : d ∈ written Effect.writes
      (passEffects p.pass.plan p.pass.manifest p.pass.remoteLamport (s.device i) events) := by
    obtain ⟨e, he, hmem⟩ := List.mem_flatMap.mp hwritten
    exact List.mem_flatMap.mpr ⟨e, List.mem_of_mem_take he, hmem⟩
  have hlogged := hknown d (hsub htaken)
  obtain ⟨result, hsent, -⟩ := hlogged.sent hlive
  refine (hmade.synced hfits hsafe hsent).sound fun hash hhash => ?_
  refine (hlogged.base hlive hash hhash).resolve_right fun htwice => ?_
  have honce := List.nodup_iff_count_le_one.mp hsafe.2.2 d.path
  omega

theorem Invariant.step [DecidableEq ι] {s t : Fleet ι} {l : FleetLabel ι} (h : s.Invariant)
    (hsafe : s.Safe l) (hstep : s.step l = some t) : t.Invariant := by
  cases l with
  | own i device tree =>
      cases hstep
      exact ⟨h.made, h.record⟩
  | remote snapshot log =>
      cases hstep
      exact ⟨h.made, h.record⟩
  | plan i options utc =>
      obtain ⟨planned, hplanned, rfl⟩ := Option.map_eq_some_iff.mp hstep
      refine ⟨fun j p hp => ?_, h.record⟩
      change Function.update s.planned i _ j = some p at hp
      by_cases hj : j = i
      · subst hj
        rw [Function.update_self, Option.some.injEq] at hp
        subst hp
        exact planPass_made hplanned
      · rw [Function.update_of_ne hj] at hp
        exact h.made j p hp
  | finish i events n =>
      simp only [Fleet.step] at hstep
      cases hp : s.planned i with
      | none => simp [hp] at hstep
      | some p =>
          rw [hp] at hstep
          simp only at hstep
          split_ifs at hstep with hfits
          cases hstep
          refine ⟨fun j q hq => ?_, fun r hr => ?_⟩
          · change Function.update s.planned i none j = some q at hq
            by_cases hj : j = i
            · subst hj
              rw [Function.update_self] at hq
              cases hq
            · rw [Function.update_of_ne hj] at hq
              exact h.made j q hq
          · rcases List.mem_append.mp hr with hr | hr
            · exact h.record r hr
            · exact descents_sound (h.made i p hp) hfits (hsafe p hp) hr

end Fleet

/-- In every run whose passes send nothing over a version their device has not synced, every live
delta descends from what its device had synced, and a version that it supersedes all the same, because
the two were logged side by side, is reported in whatever order the log is read, but for one that
brings back what a tombstone below the delta had deleted, or that was made from the delta's content. -/
theorem logged_deltas_descend_from_synced {ι : Type} [DecidableEq ι] (s t : Fleet ι)
    (labels : List (FleetLabel ι)) (hplanned : ∀ i, s.planned i = none) (hrecord : s.record = [])
    (hrun : Runs Fleet.step Fleet.Safe s labels t) :
    ∀ r ∈ t.record, r.Sound ∧ t.Reports r := by
  have hstart : s.Invariant := by
    refine ⟨fun i p hp => ?_, fun r hr => ?_⟩
    · rw [hplanned] at hp
      cases hp
    · rw [hrecord] at hr
      cases hr
  have h : t.Invariant := hrun.invariant hstart fun _ _ _ hs hsafe hstep => hs.step hsafe hstep
  exact fun r hr => ⟨h.record r hr, (h.record r hr).reports⟩

def laptopOnly (files : Baseline) (uploads : StringMap PendingUpload) (tree : LocalTree)
    (logged : List DeltaEntry) : Fleet Unit where
  device := fun _ =>
    { deviceId := "laptop", deviceName := "pc", files, uploads, lamport := 1
      manifestGeneration := 0 }
  tree := fun _ => tree
  planned := fun _ => none
  snapshot := ∅
  log := .single (deltaKey 2 "phone" 0) logged
  record := []

def laptopPass (events : PassEvents) : List (FleetLabel Unit) :=
  [.plan () ⟨fun _ => false, ⟨[], [], false⟩, []⟩ (fun _ => "now"), .finish () events 100]

def baseVersion : DeltaEntry := .sample "f" "laptop" 1 10 none

def phoneVersion : DeltaEntry := .sample "f" "phone" 2 11 (some 10)

/-- The laptop has edited "f", and its upload of the edit was interrupted. -/
def editInterrupted (logged : List DeltaEntry) : Fleet Unit :=
  let pending : PendingUpload :=
    { path := "f", uploadId := "u", partSize := 8, contentHash := 12, nonce := []
      completedParts := [] }
  laptopOnly (.single "f" (.synced "f" 1 10)) (.single "f" pending)
    (.single "f" ⟨⟨1, 1⟩, 12, true, none⟩) logged

def editResumed : PassEvents where
  uploads := (editInterrupted []).device () |>.uploads.values.map fun pending =>
    (pending, .resumed ⟨1, 1, 12, "data/f2"⟩)
  joined := []
  unix := fun _ => 0
  utc := fun _ => "now"

/-- The placeholder of "f" has been moved to "g", where the phone has put a file of its own. -/
def placeholderMoved : Fleet Unit :=
  laptopOnly (.single "f" { FileRecord.synced "f" 1 10 with residency := .evicted }) ∅
    (.single (stubRel "g") (stubFile (StubMeta.new "f" 1 10 "data/f" 0 none)))
    [baseVersion, .sample "g" "phone" 2 20 none]

def placeholderRelocated : PassEvents where
  uploads := []
  joined := [(⟨"g", .relocate⟩, .relocated ⟨1, 0, 10, "data/g2"⟩)]
  unix := fun _ => 0
  utc := fun _ => "now"

def Fleet.safe (s : Fleet Unit) : FleetLabel Unit → Bool
  | .finish i events _ => (s.planned i).all fun p => decide (p.Safe events)
  | _ => true

theorem Fleet.safe_sound (s : Fleet Unit) (l : FleetLabel Unit) (h : s.safe l = true) :
    s.Safe l := by
  cases l with
  | finish i events n =>
      intro p hp
      simp only [Fleet.safe, Option.all_eq_true, decide_eq_true_eq] at h
      exact h p hp
  | _ => trivial

def laptopVersion : DeltaEntry :=
  { DeltaEntry.sample "f" "laptop" 2 12 (some 10) with objectKey := "data/f2" }

/-- An edit of another device, logged at the same time. -/
def deskVersion : DeltaEntry := .sample "f" "desk" 2 11 (some 10)

def racedPass : List (FleetLabel Unit) :=
  laptopPass editResumed ++ [.remote ∅
    (((StringMap.single (deltaKey 2 "phone" 0) [baseVersion]).insert (deltaKey 2 "laptop" 0)
      [laptopVersion]).insert (deltaKey 2 "desk" 0) [deskVersion])]

theorem logged_deltas_descend_from_synced_raced :
    ∃ t r, execute (checked Fleet.safe Fleet.step) (editInterrupted [baseVersion]) racedPass =
      some t ∧ t.record = [r] ∧ r.Sound ∧
        ⟨r.delta, deskVersion⟩ ∈ (mergeDeltas t.snapshot t.logged).conflicts := by
  have hexecute : (execute (checked Fleet.safe Fleet.step) (editInterrupted [baseVersion])
      racedPass).map (fun t => (t.record, t.snapshot.toList, t.logged)) =
        some ([⟨laptopVersion, some 10, some baseVersion⟩], [],
          [deskVersion, laptopVersion, baseVersion]) := by
    decide +kernel
  obtain ⟨t, ht, heq⟩ := Option.map_eq_some_iff.mp hexecute
  simp only [Prod.mk.injEq] at heq
  obtain ⟨hrecord, hsnapshot, hlogged⟩ := heq
  have hempty : ∀ p : String, t.snapshot[p]? = none := by
    intro p
    rw [Option.eq_none_iff_forall_ne_some]
    intro e he
    have hmem := Std.ExtTreeMap.mem_toList_iff_getElem?_eq_some.mpr he
    rw [hsnapshot] at hmem
    cases hmem
  have hmem : ∀ c, c ∈ candidates t.snapshot t.logged "f" ↔
      c ∈ [deskVersion, laptopVersion, baseVersion] := by
    intro c
    rw [candidates, hempty, hlogged]
    exact Iff.of_eq (congrArg (c ∈ ·) (by decide +kernel))
  have hsound := logged_deltas_descend_from_synced (editInterrupted [baseVersion]) t racedPass
    (fun _ => rfl) rfl (checked_runs Fleet.safe_sound ht) ⟨laptopVersion, some 10, some baseVersion⟩
    (by rw [hrecord]; exact List.mem_singleton_self _)
  refine ⟨t, _, ht, hrecord, hsound.1, ?_⟩
  refine (hsound.2 deskVersion t.logged ⟨?_, ?_, ?_, rfl, by decide, by decide +kernel, ?_⟩
    (by decide) fun _ => Iff.rfl).mpr ⟨?_, by unfold Descent.Reverts; decide⟩
  · intro p e he
    rw [hempty] at he
    cases he
  · exact (hmem _).mpr (by simp)
  · exact (hmem _).mpr (by simp)
  · intro c hc
    have hcases := (hmem c).mp hc
    simp only [List.mem_cons, List.not_mem_nil, or_false] at hcases
    rcases hcases with rfl | rfl | rfl
    · exact .inr le_rfl
    · exact .inl rfl
    · exact .inr (by decide +kernel)
  · rintro ⟨tomb, htomb, hdeleted, -⟩
    cases htomb
    cases hdeleted

/-- A resumed upload takes the phone's newer version for its base, and a relocated placeholder the
phone's file at its new path; neither is reported as a conflict. -/
theorem logged_deltas_claim_unsynced_bases :
    (execute Fleet.step (editInterrupted [baseVersion, phoneVersion])
      (laptopPass editResumed)).map (fun t =>
        (t.record.map fun r => (r.delta.baseHash, r.synced, r.found),
          (mergeDeltas ∅ (t.world ()).logged).conflicts)) =
      some ([(some 11, some 10, some phoneVersion)], []) ∧
    (execute Fleet.step placeholderMoved (laptopPass placeholderRelocated)).map (fun t =>
        (t.record.map fun r => (r.delta.baseHash, r.synced, r.found),
          (mergeDeltas ∅ (t.world ()).logged).conflicts)) =
      some ([(some 20, none, some (.sample "g" "phone" 2 20 none))], []) := by
  constructor
  · decide +kernel
  · decide +kernel

end FileMirror
