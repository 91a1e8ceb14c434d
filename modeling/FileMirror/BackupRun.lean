import FileMirror.Packs
import FileMirror.Transitions
import Mathlib.Data.Finset.SDiff
import Mathlib.Data.Finset.Dedup

set_option autoImplicit false

/-!
# Writing to a backup repository

`repo.rs`: the calls on one handle, one store operation or locked section at a time. Any number of
`save_blob` calls are under way at once; the run itself, the slot `none`, makes its calls of `flush`,
`save_snapshot` and `adopt_orphans` one after the other.
-/

namespace FileMirror

structure BackupSnapshot where
  paths : List String
  tree : ObjectId
  parent : Option ObjectId
  deriving DecidableEq

def BackupSnapshot.validate (s : BackupSnapshot) : Except BackupError Unit :=
  if s.paths = [] then .error (.format "snapshot lists no paths")
  else if s.tree = 0 then .error (.format "snapshot has no root tree")
  else .ok ()

structure BackupStore where
  packs : IdMap Pack
  indexes : IdMap (List PackEntries)
  snapshots : IdMap BackupSnapshot

structure WriteState where
  writer : Option Writer
  inflight : Finset ObjectId
  newPacks : List PackEntries
  failed : Option String

namespace WriteState

def default : WriteState := ⟨none, ∅, [], none⟩

def isPending (s : WriteState) (id : ObjectId) : Bool :=
  s.writer.any (fun w => w.has id) || decide (id ∈ s.inflight)

def fail (s : WriteState) (message : String) : WriteState :=
  { s with failed := some (s.failed.getD message) }

def depart (s : WriteState) (pack : Pack) : WriteState :=
  { s with writer := none, inflight := s.inflight ∪ pack.ids.toFinset }

def unflushed (s : WriteState) : Bool :=
  s.writer.any (fun w => decide (w.entries ≠ [])) || decide (s.inflight ≠ ∅) ||
    decide (s.newPacks ≠ [])

end WriteState

structure Repository where
  index : Index
  packTarget : ℕ
  state : WriteState

inductive PutOutcome where
  | done
  | failed (message : String) (kept : Bool)

/-- Who called `upload_pack`. `late` says of a `flush` or `save_snapshot` that some put of a pack or
an index object had failed before it was called. -/
inductive Uploader where
  | saveBlob (id : ObjectId) (added : Bool)
  | flush (late : Bool)

inductive Returned where
  | saved (id : ObjectId) (added : Bool)
  | flushed
  | adopted (packs : ℕ)
  | published (id : ObjectId)

inductive Call where
  | idle (result : Option (Except BackupError Returned))
  | looked (p : Plaintext)
  | unsaved (p : Plaintext)
  | uploading (uploader : Uploader) (pack : Pack)
  | uploaded (uploader : Uploader) (pack : Pack)
  | indexed (uploader : Uploader) (pack : Pack)
  | failing (message : String)
  | flushing (late : Bool)
  | flushed (late : Bool)
  | indexing (late : Bool) (packs : List PackEntries)
  | publishing (late : Bool) (snapshot : BackupSnapshot)
  | writing (late : Bool) (snapshot : BackupSnapshot) (owed : List ObjectId)
  | adopting (indexed : List ObjectId)
  | taking (headers : List PackEntries) (adopted : ℕ)
  | taken (pack : PackEntries) (headers : List PackEntries) (adopted : ℕ)

/-- What has come of the calls: the blobs that a `save_blob` returned or a pack was adopted with, the
packs whose put failed, whether an index object's put failed, and of every `flush` and every
snapshot that succeeded whether it was late; of a snapshot also the blobs that were owed to it. -/
structure RunHistory where
  acked : List ObjectId
  lost : List Pack
  indexLost : Bool
  flushes : List Bool
  published : List (Bool × List ObjectId)

structure BackupRun (ι : Type*) where
  repo : Repository
  store : BackupStore
  calls : Option ι → Call
  history : RunHistory

inductive BackupStep (ι : Type*) where
  | saveBlob (i : ι) (p : Plaintext)
  | look (i : ι)
  | place (i : ι) (packId : ObjectId)
  | putPack (c : Option ι) (outcome : PutOutcome)
  | addPack (c : Option ι)
  | settle (c : Option ι)
  | reportFailure (c : Option ι)
  | flush
  | takeOpen
  | takeNew
  | putIndex (id : ObjectId) (outcome : PutOutcome)
  | saveSnapshot (snapshot : BackupSnapshot)
  | checkFlushed
  | putSnapshot (id : ObjectId) (outcome : PutOutcome)
  | adoptOrphans
  | listOrphans (listed : Except String (List ObjectId))
  | takeHeader
  | pushHeader

namespace BackupRun

variable {ι : Type*} [DecidableEq ι]

def putFailed (r : BackupRun ι) : Bool := decide (r.history.lost ≠ []) || r.history.indexLost

def setState (r : BackupRun ι) (state : WriteState) : BackupRun ι :=
  { r with repo := { r.repo with state } }

def setIndex (r : BackupRun ι) (index : Index) : BackupRun ι :=
  { r with repo := { r.repo with index } }

def goto (r : BackupRun ι) (c : Option ι) (call : Call) : BackupRun ι :=
  { r with calls := Function.update r.calls c call }

def returns (r : BackupRun ι) (c : Option ι) (result : Except BackupError Returned) :
    BackupRun ι :=
  r.goto c (.idle (some result))

def ack (r : BackupRun ι) (ids : List ObjectId) : BackupRun ι :=
  { r with history := { r.history with acked := ids ++ r.history.acked } }

def acks (r : BackupRun ι) (c : Option ι) (id : ObjectId) (added : Bool) : BackupRun ι :=
  (r.ack [id]).returns c (.ok (.saved id added))

def saveBlob (r : BackupRun ι) (c : Option ι) (p : Plaintext) : BackupRun ι :=
  if r.repo.index.has p.id then r.acks c p.id false else r.goto c (.looked p)

def look (r : BackupRun ι) (c : Option ι) (p : Plaintext) : BackupRun ι :=
  match r.repo.state.failed with
  | some failed => r.returns c (.error (.runFailed failed))
  | none =>
      if r.repo.state.isPending p.id then r.acks c p.id false else r.goto c (.unsaved p)

/-- The section after sealing; `packId` is the id of a new pack if it takes one. -/
def place (r : BackupRun ι) (c : Option ι) (p : Plaintext) (packId : ObjectId) : BackupRun ι :=
  match SealedBlob.«seal» p with
  | .error e => r.returns c (.error e)
  | .ok sealedBlob =>
      match r.repo.state.failed with
      | some failed => r.returns c (.error (.runFailed failed))
      | none =>
          if r.repo.index.has p.id || r.repo.state.isPending p.id then r.acks c p.id false
          else
            let writer := r.repo.state.writer.getD (.new packId)
            match writer.push sealedBlob with
            | .error e =>
                (r.setState { r.repo.state with writer := some writer }).returns c (.error e)
            | .ok (added, writer) =>
                if r.repo.packTarget ≤ writer.size then
                  match writer.finish with
                  | .error e =>
                      (r.setState { r.repo.state with writer := none }).returns c (.error e)
                  | .ok pack =>
                      (r.setState (r.repo.state.depart pack)).goto c
                        (.uploading (.saveBlob p.id added) pack)
                else
                  (r.setState { r.repo.state with writer := some writer }).acks c p.id added

def storePack (r : BackupRun ι) (pack : Pack) : BackupRun ι :=
  { r with store := { r.store with packs := r.store.packs.insert pack.id pack } }

def storeIndex (r : BackupRun ι) (id : ObjectId) (packs : List PackEntries) : BackupRun ι :=
  { r with store := { r.store with indexes := r.store.indexes.insert id packs } }

def storeSnapshot (r : BackupRun ι) (id : ObjectId) (snapshot : BackupSnapshot) : BackupRun ι :=
  { r with store := { r.store with snapshots := r.store.snapshots.insert id snapshot } }

def lose (r : BackupRun ι) (pack : Pack) : BackupRun ι :=
  { r with history := { r.history with lost := pack :: r.history.lost } }

def loseIndex (r : BackupRun ι) : BackupRun ι :=
  { r with history := { r.history with indexLost := true } }

def putPack (r : BackupRun ι) (c : Option ι) (uploader : Uploader) (pack : Pack) :
    PutOutcome → BackupRun ι
  | .done => (r.storePack pack).goto c (.uploaded uploader pack)
  | .failed message kept =>
      ((if kept then r.storePack pack else r).lose pack).goto c
        (.failing s!"uploading pack {short pack.id}: {message}")

def addPack (r : BackupRun ι) (c : Option ι) (uploader : Uploader) (pack : Pack) : BackupRun ι :=
  (r.setIndex (r.repo.index.addPack pack.listing)).goto c (.indexed uploader pack)

def settle (r : BackupRun ι) (c : Option ι) (uploader : Uploader) (pack : Pack) : BackupRun ι :=
  let r := r.setState { r.repo.state with
    inflight := r.repo.state.inflight \ pack.ids.toFinset
    newPacks := r.repo.state.newPacks ++ [pack.listing] }
  match uploader with
  | .saveBlob id added => r.acks c id added
  | .flush late => r.goto c (.flushed late)

def reportFailure (r : BackupRun ι) (c : Option ι) (message : String) : BackupRun ι :=
  (r.setState (r.repo.state.fail message)).returns c (.error (.runFailed message))

/-- `ensure_writable`, and then `call`. -/
def ifWritable (r : BackupRun ι) (call : Call) : BackupRun ι :=
  match r.repo.state.failed with
  | some failed => r.returns none (.error (.runFailed failed))
  | none => r.goto none call

def takeOpen (r : BackupRun ι) (late : Bool) : BackupRun ι :=
  let closed := r.setState { r.repo.state with writer := none }
  match r.repo.state.writer.filter fun w => decide (w.entries ≠ []) with
  | none => closed.goto none (.flushed late)
  | some writer =>
      match writer.finish with
      | .ok pack =>
          (r.setState (r.repo.state.depart pack)).goto none (.uploading (.flush late) pack)
      | .error e =>
          let message := s!"finishing pack: {e.message}"
          closed.reportFailure none message

def flushSucceeds (r : BackupRun ι) (late : Bool) : BackupRun ι :=
  { r with history := { r.history with flushes := late :: r.history.flushes } }.returns none
    (.ok .flushed)

def takeNew (r : BackupRun ι) (late : Bool) : BackupRun ι :=
  if r.repo.state.inflight ≠ ∅ then
    r.returns none (.error (.invalid "flush called while blobs are still being saved"))
  else if r.repo.state.newPacks = [] then r.flushSucceeds late
  else
    (r.setState { r.repo.state with newPacks := [] }).goto none
      (.indexing late r.repo.state.newPacks)

def putIndex (r : BackupRun ι) (late : Bool) (packs : List PackEntries) (id : ObjectId) :
    PutOutcome → BackupRun ι
  | .done => (r.storeIndex id packs).flushSucceeds late
  | .failed message kept =>
      (if kept then r.storeIndex id packs else r).loseIndex.goto none
        (.failing s!"writing index: {message}")

def checkFlushed (r : BackupRun ι) (late : Bool) (snapshot : BackupSnapshot) : BackupRun ι :=
  if r.repo.state.unflushed then
    r.returns none (.error (.invalid "save_snapshot called before flush"))
  else
    match snapshot.validate with
    | .error e => r.returns none (.error e)
    | .ok () => r.goto none (.writing late snapshot r.history.acked)

def publish (r : BackupRun ι) (late : Bool) (owed : List ObjectId) : BackupRun ι :=
  { r with history := { r.history with published := (late, owed) :: r.history.published } }

def putSnapshot (r : BackupRun ι) (late : Bool) (snapshot : BackupSnapshot)
    (owed : List ObjectId) (id : ObjectId) : PutOutcome → BackupRun ι
  | .done => ((r.storeSnapshot id snapshot).publish late owed).returns none (.ok (.published id))
  | .failed message kept =>
      (if kept then r.storeSnapshot id snapshot else r).returns none (.error (.mirror message))

def listOrphans (r : BackupRun ι) : Except String (List ObjectId) → BackupRun ι
  | .error message => r.returns none (.error (.mirror message))
  | .ok headers =>
      let read := fun id => r.store.packs[id]?.map fun pack => (⟨id, pack.entries⟩ : PackEntries)
      r.goto none (.taking (headers.filterMap read) 0)

def takeHeader (r : BackupRun ι) (adopted : ℕ) : List PackEntries → BackupRun ι
  | [] => r.returns none (.ok (.adopted adopted))
  | pack :: headers =>
      (r.setIndex (r.repo.index.addPack pack)).goto none (.taken pack headers adopted)

def pushHeader (r : BackupRun ι) (pack : PackEntries) (headers : List PackEntries) (adopted : ℕ) :
    BackupRun ι :=
  let state := { r.repo.state with newPacks := r.repo.state.newPacks ++ [pack] }
  ((r.setState state).ack pack.ids).goto none (.taking headers (adopted + 1))

/-- Ids of packs, index objects and snapshots are random, so nothing is stored under one before. -/
def step (r : BackupRun ι) : BackupStep ι → Option (BackupRun ι)
  | .saveBlob i p =>
      match r.calls (some i) with
      | .idle _ => some (r.saveBlob (some i) p)
      | _ => none
  | .look i =>
      match r.calls (some i) with
      | .looked p => some (r.look (some i) p)
      | _ => none
  | .place i packId =>
      match r.calls (some i) with
      | .unsaved p => some (r.place (some i) p packId)
      | _ => none
  | .putPack c outcome =>
      match r.calls c with
      | .uploading uploader pack =>
          if pack.id ∈ r.store.packs then none else some (r.putPack c uploader pack outcome)
      | _ => none
  | .addPack c =>
      match r.calls c with
      | .uploaded uploader pack => some (r.addPack c uploader pack)
      | _ => none
  | .settle c =>
      match r.calls c with
      | .indexed uploader pack => some (r.settle c uploader pack)
      | _ => none
  | .reportFailure c =>
      match r.calls c with
      | .failing message => some (r.reportFailure c message)
      | _ => none
  | .flush =>
      match r.calls none with
      | .idle _ => some (r.ifWritable (.flushing r.putFailed))
      | _ => none
  | .takeOpen =>
      match r.calls none with
      | .flushing late => some (r.takeOpen late)
      | _ => none
  | .takeNew =>
      match r.calls none with
      | .flushed late => some (r.takeNew late)
      | _ => none
  | .putIndex id outcome =>
      match r.calls none with
      | .indexing late packs =>
          if id ∈ r.store.indexes then none else some (r.putIndex late packs id outcome)
      | _ => none
  | .saveSnapshot snapshot =>
      match r.calls none with
      | .idle _ => some (r.ifWritable (.publishing r.putFailed snapshot))
      | _ => none
  | .checkFlushed =>
      match r.calls none with
      | .publishing late snapshot => some (r.checkFlushed late snapshot)
      | _ => none
  | .putSnapshot id outcome =>
      match r.calls none with
      | .writing late snapshot owed =>
          if id ∈ r.store.snapshots then none
          else some (r.putSnapshot late snapshot owed id outcome)
      | _ => none
  | .adoptOrphans =>
      match r.calls none with
      | .idle _ => some (r.goto none (.adopting r.repo.index.packIds))
      | _ => none
  | .listOrphans listed =>
      match r.calls none with
      | .adopting known =>
          let headers := listed.toOption.getD []
          if headers.Nodup ∧ ∀ id ∈ headers, id ∈ r.store.packs ∧ id ∉ known
          then some (r.listOrphans listed) else none
      | _ => none
  | .takeHeader =>
      match r.calls none with
      | .taking headers adopted => some (r.takeHeader adopted headers)
      | _ => none
  | .pushHeader =>
      match r.calls none with
      | .taken pack headers adopted => some (r.pushHeader pack headers adopted)
      | _ => none

inductive Takes (r : BackupRun ι) : BackupStep ι → BackupRun ι → Prop
  | saveBlob {i p result} (hc : r.calls (some i) = .idle result) :
      Takes r (.saveBlob i p) (r.saveBlob (some i) p)
  | look {i p} (hc : r.calls (some i) = .looked p) : Takes r (.look i) (r.look (some i) p)
  | place {i p packId} (hc : r.calls (some i) = .unsaved p) :
      Takes r (.place i packId) (r.place (some i) p packId)
  | putPack {c uploader pack outcome} (hc : r.calls c = .uploading uploader pack)
      (hfresh : pack.id ∉ r.store.packs) :
      Takes r (.putPack c outcome) (r.putPack c uploader pack outcome)
  | addPack {c uploader pack} (hc : r.calls c = .uploaded uploader pack) :
      Takes r (.addPack c) (r.addPack c uploader pack)
  | settle {c uploader pack} (hc : r.calls c = .indexed uploader pack) :
      Takes r (.settle c) (r.settle c uploader pack)
  | reportFailure {c message} (hc : r.calls c = .failing message) :
      Takes r (.reportFailure c) (r.reportFailure c message)
  | flush {result} (hc : r.calls none = .idle result) :
      Takes r .flush (r.ifWritable (.flushing r.putFailed))
  | takeOpen {late} (hc : r.calls none = .flushing late) : Takes r .takeOpen (r.takeOpen late)
  | takeNew {late} (hc : r.calls none = .flushed late) : Takes r .takeNew (r.takeNew late)
  | putIndex {late packs id outcome} (hc : r.calls none = .indexing late packs)
      (hfresh : id ∉ r.store.indexes) :
      Takes r (.putIndex id outcome) (r.putIndex late packs id outcome)
  | saveSnapshot {snapshot result} (hc : r.calls none = .idle result) :
      Takes r (.saveSnapshot snapshot) (r.ifWritable (.publishing r.putFailed snapshot))
  | checkFlushed {late snapshot} (hc : r.calls none = .publishing late snapshot) :
      Takes r .checkFlushed (r.checkFlushed late snapshot)
  | putSnapshot {late snapshot owed id outcome} (hc : r.calls none = .writing late snapshot owed) :
      Takes r (.putSnapshot id outcome) (r.putSnapshot late snapshot owed id outcome)
  | adoptOrphans {result} (hc : r.calls none = .idle result) :
      Takes r .adoptOrphans (r.goto none (.adopting r.repo.index.packIds))
  | listOrphans {known listed} (hc : r.calls none = .adopting known) :
      Takes r (.listOrphans listed) (r.listOrphans listed)
  | takeHeader {headers adopted} (hc : r.calls none = .taking headers adopted) :
      Takes r .takeHeader (r.takeHeader adopted headers)
  | pushHeader {pack headers adopted} (hc : r.calls none = .taken pack headers adopted) :
      Takes r .pushHeader (r.pushHeader pack headers adopted)

theorem takes_of_step {r t : BackupRun ι} {a : BackupStep ι} (h : r.step a = some t) :
    r.Takes a t := by
  revert h
  fun_cases step r a
  all_goals
    intro h
    cases h
  · exact .saveBlob ‹_›
  · exact .look ‹_›
  · exact .place ‹_›
  · exact .putPack ‹_› ‹_›
  · exact .addPack ‹_›
  · exact .settle ‹_›
  · exact .reportFailure ‹_›
  · exact .flush ‹_›
  · exact .takeOpen ‹_›
  · exact .takeNew ‹_›
  · exact .putIndex ‹_› ‹_›
  · exact .saveSnapshot ‹_›
  · exact .checkFlushed ‹_›
  · exact .putSnapshot ‹_›
  · exact .adoptOrphans ‹_›
  · exact .listOrphans ‹_›
  · exact .takeHeader ‹_›
  · exact .pushHeader ‹_›

/-- The handle has just been opened, or its repository just been created. -/
structure Begins (r : BackupRun ι) : Prop where
  index : r.repo.index = Index.load r.store.indexes ∨ r.repo.index = Index.new
  state : r.repo.state = .default
  calls : ∀ c, r.calls c = .idle none
  history : r.history = ⟨[], [], false, [], []⟩

end BackupRun

end FileMirror
