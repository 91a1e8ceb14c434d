import FileMirror.Eviction
import FileMirror.Overwrites

set_option autoImplicit false

namespace FileMirror

def Skip.text : Skip → String
  | .notTracked => "not tracked"
  | .alreadyEvicted => "already online-only"
  | .notSynced => "not in sync"
  | .pendingUpload => "upload pending"
  | .remoteUnverified => "remote copy unverified"
  | .changed => "changed during eviction"

namespace Control

inductive Trigger where
  | poll
  | fsChange
  | manual
  | residency
  deriving DecidableEq

inductive LogLevel where
  | info
  | warn
  | error
  deriving DecidableEq

structure SyncOutcome where
  uploads : ℕ
  downloads : ℕ
  deletesLocal : ℕ
  deletesRemote : ℕ
  conflicts : ℕ
  hydrated : ℕ
  placeholders : ℕ
  relocated : ℕ
  evicted : ℕ
  bytesFreed : ℕ
  compacted : ℕ
  notEvicted : List (String × Skip)
  failed : List (String × String)
  deriving DecidableEq

namespace SyncOutcome

def default : SyncOutcome := ⟨0, 0, 0, 0, 0, 0, 0, 0, 0, 0, 0, [], []⟩

def isNoop (o : SyncOutcome) : Bool :=
  o.uploads = 0 && o.downloads = 0 && o.deletesLocal = 0 && o.deletesRemote = 0 &&
    o.conflicts = 0 && o.hydrated = 0 && o.placeholders = 0 && o.relocated = 0 && o.evicted = 0 &&
    o.compacted = 0 && o.failed.isEmpty

def summary (humanBytes : ℕ → String) (o : SyncOutcome) : String :=
  let text := s!"{o.uploads} upload, {o.downloads} download, {o.deletesRemote} delete-remote, {o.deletesLocal} delete-local, {o.conflicts} conflict"
  let text :=
    if 0 < o.hydrated + o.placeholders + o.relocated + o.evicted then
      text ++ s!", {o.hydrated} hydrate, {o.placeholders} placeholder, {o.relocated} relocate, {o.evicted} evict ({humanBytes o.bytesFreed} freed)"
    else text
  let text := if 0 < o.compacted then text ++ s!", compacted {o.compacted} deltas" else text
  if o.failed = [] then text else text ++ s!", {o.failed.length} failed (retried next sync)"

end SyncOutcome

structure LastSync where
  finishedAt : ℕ
  result : Except String SyncOutcome

structure BackupSummary where
  snapshot : String
  files : ℕ
  bytesAdded : ℕ
  pruned : Option ℕ
  deriving DecidableEq

def BackupSummary.text (humanBytes : ℕ → String) (s : BackupSummary) : String :=
  let text := s!"snapshot {s.snapshot}: {s.files} files, {humanBytes s.bytesAdded} new"
  s.pruned.elim text fun pruned => text ++ s!", {pruned} old snapshots pruned"

structure LastBackup where
  finishedAt : ℕ
  result : Except String BackupSummary

structure Snapshot where
  bucket : String
  root : String
  pollIntervalSecs : ℕ
  syncing : Option Trigger
  last : Option LastSync
  backingUp : Bool
  lastBackup : Option LastBackup

inductive UiEvent where
  | hello (snapshot : Snapshot)
  | polled
  | syncStarted (trigger : Trigger)
  | syncFinished (last : LastSync)
  | backupStarted
  | backupFinished (last : LastBackup)
  | fileStarted (id : ℕ) (path : String) (total : ℕ)
  | fileProgress (id done : ℕ)
  | fileFinished (id : ℕ)
  | actionCompleted (path : String) (kind : ActionKind)
  | log (level : LogLevel) (msg : String)

inductive Cell where
  | syncing
  | last
  | backingUp
  | lastBackup

abbrev Cell.Held : Cell → Type
  | .syncing => Option Trigger
  | .last => Option LastSync
  | .backingUp => Bool
  | .lastBackup => Option LastBackup

def Snapshot.shows (s : Snapshot) : ∀ c : Cell, c.Held
  | .syncing => s.syncing
  | .last => s.last
  | .backingUp => s.backingUp
  | .lastBackup => s.lastBackup

def UiEvent.writes : UiEvent → ∀ c : Cell, Option c.Held
  | .hello snapshot, c => some (snapshot.shows c)
  | .syncStarted trigger, .syncing => some (some trigger)
  | .syncFinished _, .syncing => some none
  | .syncFinished last, .last => some (some last)
  | .backupStarted, .backingUp => some true
  | .backupFinished _, .backingUp => some false
  | .backupFinished last, .lastBackup => some (some last)
  | _, _ => none

structure DaemonStatus where
  bucket : String
  root : String
  pollIntervalSecs : ℕ
  syncing : Option Trigger
  last : Option LastSync
  backupIntervalHours : ℕ
  backingUp : Bool
  lastBackup : Option LastBackup

namespace DaemonStatus

def new (bucket root : String) (pollIntervalSecs backupIntervalHours : ℕ) : DaemonStatus :=
  ⟨bucket, root, pollIntervalSecs, none, none, backupIntervalHours, false, none⟩

def started (s : DaemonStatus) (trigger : Trigger) : DaemonStatus :=
  { s with syncing := some trigger }

def record (s : DaemonStatus) (last : LastSync) : DaemonStatus :=
  { s with syncing := none, last := some last }

def backupStarted (s : DaemonStatus) : DaemonStatus := { s with backingUp := true }

def recordBackup (s : DaemonStatus) (last : LastBackup) : DaemonStatus :=
  { s with backingUp := false, lastBackup := some last }

def snapshot (s : DaemonStatus) : Snapshot :=
  ⟨s.bucket, s.root, s.pollIntervalSecs, s.syncing, s.last, s.backingUp, s.lastBackup⟩

def shows (s : DaemonStatus) : ∀ c : Cell, c.Held := s.snapshot.shows

variable {s : DaemonStatus} {trigger : Trigger} {last : LastSync} {lastBackup : LastBackup}

theorem shows_started :
    (s.started trigger).shows = Overwrites.overwrite UiEvent.writes s.shows (.syncStarted trigger) := by
  funext c
  cases c <;> rfl

theorem shows_record :
    (s.record last).shows = Overwrites.overwrite UiEvent.writes s.shows (.syncFinished last) := by
  funext c
  cases c <;> rfl

theorem shows_backupStarted :
    s.backupStarted.shows = Overwrites.overwrite UiEvent.writes s.shows .backupStarted := by
  funext c
  cases c <;> rfl

theorem shows_recordBackup : (s.recordBackup lastBackup).shows =
    Overwrites.overwrite UiEvent.writes s.shows (.backupFinished lastBackup) := by
  funext c
  cases c <;> rfl

end DaemonStatus

end Control

end FileMirror
