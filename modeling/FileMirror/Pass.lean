import FileMirror.Apply
import FileMirror.RemoteConflict
import FileMirror.Scanner
import FileMirror.WriteAhead

set_option autoImplicit false

namespace FileMirror

structure PassOptions where
  ignored : String → Bool
  policy : Policy
  hydrate : List String

structure PassPlan where
  plan : Plan
  manifest : Manifest
  scan : ScanResult
  remoteLamport : ℕ

def addRelocation (plan : Plan) (relocation : String × DeltaEntry) : Plan :=
  let loser := relocation.2
  { actions := plan.actions.map (fun action =>
        if action.path = loser.path ∧ action.kind = .hydrate then
          { action with kind := .updatePlaceholder }
        else action) ++ [⟨relocation.1, .relocate⟩]
    relocations := plan.relocations.insert relocation.1 loser }

/-- What `plan_pass` works out once the conflict losers are set aside. -/
def planFrom (options : PassOptions) (merged : MergeResult) (preserved : Preserving) : PassPlan :=
  let baseline := preserved.state.files
  let scan := scanAllWith options.ignored baseline preserved.tree
  let placeholders := dropStale scan
  let plan := reconcileWith scan.entries baseline merged.manifest
    ⟨placeholders, options.policy, options.hydrate⟩
  let plan := preserved.preserved.relocations.foldl addRelocation plan
  { plan := { plan with actions := sortActions plan.actions }
    manifest := merged.manifest
    scan := { scan with placeholders }
    remoteLamport := merged.remoteLamport }

/-- The placeholders that `plan_pass` removes from the disk: those beside their real file. -/
def removeStale (options : PassOptions) (device : DeviceState) (tree : LocalTree) : LocalTree :=
  let scan := scanAllWith options.ignored device.files tree
  (scan.placeholders.keys.filter fun path => !(dropStale scan).contains path).foldl
    (fun tree path => tree.erase (stubRel path)) tree

/-- `plan_pass` on what it read; `none` where `preserve_conflict_losers` fails. -/
def planPass (options : PassOptions) (utc : ℕ → String) (snapshot : Manifest)
    (deltas : List DeltaEntry) (w : World) : Option (PassPlan × World) :=
  let merged := mergeDeltas snapshot deltas
  let stamped := merged.conflicts.zipIdx.map fun c => (c.1, utc c.2)
  match preserveConflictLosers stamped w.tree w.device with
  | (_, false) => none
  | (preserved, true) =>
      some (planFrom options merged preserved,
        { w with
          device := preserved.state
          tree := removeStale options preserved.state preserved.tree })

theorem planPass_eq_some_iff {options : PassOptions} {utc : ℕ → String} {snapshot : Manifest}
    {deltas : List DeltaEntry} {w t : World} {pass : PassPlan} :
    planPass options utc snapshot deltas w = some (pass, t) ↔ ∃ preserved,
      preserveConflictLosers ((mergeDeltas snapshot deltas).conflicts.zipIdx.map
        fun c => (c.1, utc c.2)) w.tree w.device = (preserved, true) ∧
      planFrom options (mergeDeltas snapshot deltas) preserved = pass ∧
      { w with
        device := preserved.state
        tree := removeStale options preserved.state preserved.tree } = t := by
  unfold planPass
  dsimp only
  split
  · simp_all
  · simp_all

/-- What becomes of one pending upload: the file no longer matches, the multipart is gone, some
other error, or it completes. -/
inductive ResumeOutcome where
  | changed
  | gone
  | error
  | resumed (r : UploadResult)
  deriving DecidableEq

structure Resuming where
  completed : List (DeltaEntry × UploadResult)
  effects : List Effect

def resumeOne (manifest : Manifest) (clock : PassClock) (r : Resuming)
    (upload : PendingUpload × ResumeOutcome) : Option Resuming :=
  let path := upload.1.path
  let effects := r.effects ++ [.clearUpload path]
  match upload.2 with
  | .changed | .gone => some { r with effects }
  | .error => none
  | .resumed result =>
      let entry := newDelta manifest clock path result
      some { completed := r.completed ++ [(entry, result)], effects }

def resumeAll (manifest : Manifest) (clock : PassClock) :
    List (PendingUpload × ResumeOutcome) → Resuming → Resuming × Bool
  | [], r => (r, true)
  | upload :: uploads, r =>
      match resumeOne manifest clock r upload with
      | none => ({ r with effects := r.effects ++ [.clearUpload upload.1.path] }, false)
      | some r => resumeAll manifest clock uploads r

/-- The effects of `resume_uploads`, the manifest it leaves and the paths it completed; `none`
for these where it returns an error. -/
def resumeUploads (manifest : Manifest) (clock : PassClock)
    (uploads : List (PendingUpload × ResumeOutcome)) :
    List Effect × Option (Manifest × List String) :=
  match resumeAll manifest clock uploads ⟨[], []⟩ with
  | (r, false) => (r.effects, none)
  | (r, true) =>
      if r.completed = [] then (r.effects, some (manifest, []))
      else
        let deltas := r.completed.map Prod.fst
        let confirms := r.completed.map fun c =>
          Effect.confirmSync c.1.path c.2.size c.2.mtimeNs c.2.contentHash
        (r.effects ++ .logDelta clock.lamport 0 deltas :: .recordLamport clock.lamport :: confirms,
          some (deltas.foldl (fun m entry => m.insert entry.path entry) manifest,
            deltas.map DeltaEntry.path))

/-- What the environment decides in one pass, once the plan is made. -/
structure PassEvents where
  uploads : List (PendingUpload × ResumeOutcome)
  joined : List (Action × Outcome)
  unix : String → ℕ
  utc : String → String

def PassEvents.clock (events : PassEvents) (device : DeviceState) (lamport : ℕ) : PassClock :=
  ⟨device.deviceId, device.deviceName, lamport, events.unix, events.utc⟩

/-- `max(remote_lamport, local_lamport) + 1`. -/
def nextLamport (remoteLamport localLamport : ℕ) : ℕ := max remoteLamport localLamport + 1

/-- `plan.actions.retain(..)`: a resumed upload needs no `Upload` any more. -/
def dropResumed (plan : Plan) (resumed : List String) : Plan :=
  { plan with actions := plan.actions.filter fun action =>
      !(action.kind = .upload && action.path ∈ resumed) }

/-- The stored clock once the effects of `resume_uploads` are done. -/
def lamportAfter (device : DeviceState) (effects : List Effect) : ℕ :=
  effects.foldl (fun lamport e =>
    match e with
    | .recordLamport clock => min clock i64Max
    | _ => lamport) device.lamport

/-- The durable effects of `resume_uploads` followed by `apply`. -/
def passEffects (plan : Plan) (manifest : Manifest) (remoteLamport : ℕ) (device : DeviceState)
    (events : PassEvents) : List Effect :=
  let resumeClock := events.clock device (nextLamport remoteLamport device.lamport)
  match resumeUploads manifest resumeClock events.uploads with
  | (effects, none) => effects
  | (effects, some (manifest, resumed)) =>
      let lamport := nextLamport remoteLamport (lamportAfter device effects)
      effects ++ (apply (dropResumed plan resumed) events.joined manifest
        (events.clock device lamport)).1.effects

end FileMirror
