import FileMirror.Engine
import FileMirror.ManifestMerge
import FileMirror.ObjectKeys

set_option autoImplicit false

/-!
# Applying a plan

`apply` in the order of its durable effects. Transfers run concurrently; what they come to is
given from outside, in the order in which they are joined, and a crash or an error cuts the
effects off at some point.
-/

namespace FileMirror

structure UploadResult where
  size : ℕ
  mtimeNs : ℤ
  contentHash : ContentHash
  objectKey : String
  deriving DecidableEq

structure DownloadResult where
  size : ℕ
  mtimeNs : ℤ
  contentHash : ContentHash
  deriving DecidableEq

/-- What a joined transfer returned; `deferred` is an upload whose file kept changing. -/
inductive Outcome where
  | failed (error : String)
  | deferred
  | uploaded (r : UploadResult)
  | relocated (r : UploadResult)
  | downloaded (r : DownloadResult)
  deriving DecidableEq

inductive BaselineOp where
  | confirm (path : String) (size : ℕ) (mtimeNs : ℤ) (hash : ContentHash)
  | hydrated (path : String)
  | placeholder (stub : StubMeta) (hash : ContentHash)
  | remove (path : String)
  deriving DecidableEq

inductive Effect where
  | logDelta (lamport seq : ℕ) (deltas : List DeltaEntry)
  | confirmSync (path : String) (size : ℕ) (mtimeNs : ℤ) (hash : ContentHash)
  | recordHydrated (path : String)
  | writePlaceholder (stub : StubMeta)
  | confirmPlaceholder (path : String) (size : ℕ) (hash : ContentHash)
  | removeRow (path : String)
  | deleteLocal (path : String)
  | setAside (path target : String)
  | clearUpload (path : String)
  | recordLamport (clock : ℕ)
  deriving DecidableEq

structure World where
  device : DeviceState
  tree : LocalTree
  log : StringMap (List DeltaEntry)

/-- A placeholder on disk is a file like any other, whose bytes are no one's content; what it says
is read back only where it is short enough. -/
def stubFile (stub : StubMeta) : DiskFile :=
  ⟨⟨0, 0⟩, 0, true, if stub.textLen ≤ maxStubLen then some stub else none⟩

def World.run (now : String → ℕ) (w : World) : Effect → World
  | .logDelta lamport seq deltas =>
      { w with log := w.log.insert (deltaKey lamport w.device.deviceId seq) deltas }
  | .confirmSync path size mtimeNs hash =>
      { w with device := w.device.confirmSync (now path) path size mtimeNs hash }
  | .recordHydrated path => { w with device := w.device.recordHydrated (now path) path }
  | .writePlaceholder stub => { w with tree := w.tree.insert (stubRel stub.path) (stubFile stub) }
  | .confirmPlaceholder path size hash =>
      { w with device := w.device.confirmPlaceholder (now path) path size hash }
  | .removeRow path => { w with device := w.device.remove path }
  | .deleteLocal path => { w with tree := (w.tree.erase path).erase (stubRel path) }
  | .setAside path target => { w with tree := w.tree.rename path target }
  | .clearUpload path => { w with device := w.device.clearUpload path }
  | .recordLamport clock => { w with device := w.device.recordLamport clock }

def BaselineOp.effects : BaselineOp → List Effect
  | .confirm path size mtimeNs hash => [.confirmSync path size mtimeNs hash]
  | .hydrated path => [.recordHydrated path]
  | .placeholder stub hash =>
      [.writePlaceholder stub, .confirmPlaceholder stub.path stub.size hash]
  | .remove path => [.removeRow path]

/-- The local variables of `apply`, and what it has done so far. -/
structure Applying where
  manifest : Manifest
  deltas : List DeltaEntry
  batchOps : List BaselineOp
  flushSeq : ℕ
  pinnedSources : List String
  failed : List (String × String)
  effects : List Effect

def flush (lamport : ℕ) (a : Applying) : Applying :=
  let logged := if a.deltas = [] then [] else [Effect.logDelta lamport a.flushSeq a.deltas]
  { a with
    deltas := []
    batchOps := []
    flushSeq := if a.deltas = [] then a.flushSeq else a.flushSeq + 1
    effects := a.effects ++ (logged ++ a.batchOps.flatMap BaselineOp.effects) }

def flushBatch : ℕ := 25

def flushIfFull (lamport : ℕ) (a : Applying) : Applying :=
  if flushBatch ≤ a.batchOps.length then flush lamport a else a

/-- What the pass knows besides the plan: itself, its lamport and the clock. -/
structure PassClock where
  deviceId : String
  deviceName : String
  lamport : ℕ
  unix : String → ℕ
  utc : String → String

def newDelta (manifest : Manifest) (clock : PassClock) (path : String) (r : UploadResult) :
    DeltaEntry :=
  { path, objectKey := r.objectKey, plaintextHash := r.contentHash, size := r.size
    mtimeUtc := clock.unix path, deleted := false, deletedAt := 0, lamport := clock.lamport
    deviceId := clock.deviceId
    baseHash := manifest[path]?.map DeltaEntry.plaintextHash }

/-- The tombstone that `DeleteRemote` logs for the entry it finds. -/
def tombstone (clock : PassClock) (path : String) (entry : DeltaEntry) : DeltaEntry :=
  { path, objectKey := entry.objectKey, plaintextHash := entry.plaintextHash, size := entry.size
    mtimeUtc := entry.mtimeUtc, deleted := true, deletedAt := clock.unix path
    lamport := clock.lamport, deviceId := clock.deviceId
    baseHash := some entry.plaintextHash }

def hashText (hash : ContentHash) : String :=
  let digits := Nat.toDigits 16 hash.val
  String.ofList (List.replicate (64 - digits.length) '0' ++ digits)

def StubMeta.new (path : String) (size : ℕ) (hash : ContentHash) (objectKey : String)
    (evictedAt : ℕ) (mtimeNs : Option ℤ) : StubMeta :=
  { rfm := 1, path, size, hash := hashText hash, objectKey, evictedAt
    mtimeNs, mode := none }

def stubMtime (entry : DeltaEntry) : Option ℤ :=
  let ns := entry.mtimeUtc * 1000000000
  if 0 < ns ∧ ns ≤ i64Max then some ns else none

def joinOne (plan : Plan) (clock : PassClock) (a : Applying) (joined : Action × Outcome) :
    Applying :=
  let path := joined.1.path
  let a := match joined.2 with
    | .failed error =>
        { a with
          failed := a.failed ++ [(path, error)]
          pinnedSources := a.pinnedSources ++
            (plan.relocations[path]?.map DeltaEntry.path).toList }
    | .deferred => a
    | .uploaded r =>
        let entry := newDelta a.manifest clock path r
        { a with
          manifest := a.manifest.insert path entry
          deltas := a.deltas ++ [entry]
          batchOps := a.batchOps ++ [.confirm path r.size r.mtimeNs r.contentHash] }
    | .relocated r =>
        let entry := newDelta a.manifest clock path r
        let stub := StubMeta.new path r.size r.contentHash r.objectKey (clock.unix path)
          (some r.mtimeNs)
        { a with
          manifest := a.manifest.insert path entry
          deltas := a.deltas ++ [entry]
          batchOps := a.batchOps ++ [.placeholder stub r.contentHash] }
    | .downloaded r =>
        let hydrated := if joined.1.kind = .hydrate then [BaselineOp.hydrated path] else []
        { a with
          batchOps := a.batchOps ++ .confirm path r.size r.mtimeNs r.contentHash :: hydrated }
  flushIfFull clock.lamport a

/-- One action of the second loop; `none` is an error, which ends the pass. -/
def actOne (clock : PassClock) (a : Applying) (action : Action) : Option Applying :=
  let path := action.path
  let acted : Option Applying := match action.kind with
    | .createPlaceholder | .updatePlaceholder =>
        if path ∈ a.pinnedSources then some a
        else a.manifest[path]?.map fun entry =>
          let stub := StubMeta.new path entry.size entry.plaintextHash entry.objectKey
            (clock.unix path) (stubMtime entry)
          { a with batchOps := a.batchOps ++ [.placeholder stub entry.plaintextHash] }
    | .deleteLocal =>
        some { a with
          effects := a.effects ++ [.deleteLocal path]
          batchOps := a.batchOps ++ [.remove path] }
    | .deleteRemote =>
        if path ∈ a.pinnedSources then some a
        else some { a with
          deltas := a.deltas ++ (a.manifest[path]?.map (tombstone clock path)).toList
          manifest := a.manifest.erase path
          batchOps := a.batchOps ++ [.remove path] }
    | .conflict =>
        let target := replaceName path (conflictName path (clock.utc path) clock.deviceName)
        (safeJoin target).map fun target =>
          { a with effects := a.effects ++ [.setAside path target, .removeRow path] }
    | .download | .hydrate | .relocate | .upload => some a
  -- a pinned path skips the rest of the loop body, where there is nothing left to flush
  acted.map (flushIfFull clock.lamport)

def actAll (clock : PassClock) : List Action → Applying → Applying × Bool
  | [], a => (a, true)
  | action :: actions, a =>
      match actOne clock a action with
      | none => (a, false)
      | some a => actAll clock actions a

def spawnable (plan : Plan) (manifest : Manifest) : Bool :=
  plan.actions.all fun action =>
    match action.kind with
    | .download | .hydrate => manifest[action.path]?.isSome
    | .relocate => plan.relocations[action.path]?.isSome
    | _ => true

/-- `apply`: the effects, cut short where it returns an error. -/
def apply (plan : Plan) (joined : List (Action × Outcome)) (manifest : Manifest)
    (clock : PassClock) : Applying × Bool :=
  let start : Applying := ⟨manifest, [], [], 0, [], [], []⟩
  if spawnable plan manifest then
    match actAll clock plan.actions (joined.foldl (joinOne plan clock) start) with
    | (a, false) => (a, false)
    | (a, true) =>
        let a := flush clock.lamport a
        let failed := a.failed.insertionSort fun x y => toLex x ≤ toLex y
        ({ a with effects := a.effects ++ [.recordLamport clock.lamport], failed }, true)
  else (start, false)

end FileMirror
