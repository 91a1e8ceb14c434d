import FileMirror.Control
import FileMirror.Transitions

set_option autoImplicit false

/-!
# The daemon

`watch.rs`: the loop and the connections, which queue triggers and requests, the worker that runs one
sync pass after another, and the one that takes backups beside it. Their steps come in any order. A
poll of a worker's `select!` looks at the branches one after the other, and a status is updated before
the event that tells of it is sent. What a pass or a backup comes to is up to the environment.
-/

namespace FileMirror.Control

structure ResidencyRequest where
  hydrate : Bool
  verify : Bool
  patterns : List String
  deriving DecidableEq

structure Job where
  connection : ℕ
  request : ResidencyRequest
  deriving DecidableEq

def residencySummary (humanBytes : ℕ → String) (outcome : SyncOutcome)
    (request : ResidencyRequest) : String :=
  let text :=
    if request.hydrate then s!"hydrated {outcome.hydrated} file(s)\n"
    else s!"evicted {outcome.evicted} file(s), freed {humanBytes outcome.bytesFreed}\n"
  text ++ String.join (outcome.notEvicted.map fun skipped =>
    s!"  skipped  {skipped.1}: {skipped.2.text}\n")

def replyText (humanBytes : ℕ → String) (result : Except String SyncOutcome)
    (request : ResidencyRequest) : String :=
  match result with
  | .ok outcome => residencySummary humanBytes outcome request
  | .error e => s!"error: {e}\n"

def residencyCapacity : ℕ := 8

/-- What `try_send` comes to. -/
inductive TrySend where
  | ok
  | full
  | closed
  deriving DecidableEq

inductive BackupTrigger where
  | scheduled
  | manual
  deriving DecidableEq

/-- Where the sync worker is: in a poll of `select!`, or in a pass, for a job or without one. -/
inductive WorkerPhase where
  | waiting
  | notShutDown
  | noRequest
  | received (trigger : Trigger) (job : Option Job)
  | started (trigger : Trigger) (job : Option Job)
  | running (trigger : Trigger) (job : Option Job)
  | recorded (last : LastSync) (job : Option Job)
  | replying (result : Except String SyncOutcome) (job : Job)
  | stopped

inductive BackupPhase where
  | waiting
  | notShutDown
  | received (trigger : BackupTrigger)
  | started
  | running
  | recorded (last : LastBackup)
  | stopped

/-- `events` is all that the hub was sent, `passes` what the passes ran for, and `turnedAway` has the
jobs whose connection is told that the daemon is stopping. -/
structure Daemon where
  looping : Bool
  syncs : Option Trigger
  senders : List Job
  queued : List Job
  worker : WorkerPhase
  shutdown : Bool
  backups : Option BackupTrigger
  backupSenders : Bool
  backupWorker : BackupPhase
  backupShutdown : Bool
  status : DaemonStatus
  events : List UiEvent
  passes : List Trigger
  answered : List (Job × String)
  turnedAway : List Job

inductive WorkerStep where
  | pollShutdown
  | pollResidency
  | pollSyncs
  | start
  | announce
  | finish (now : ℕ) (result : Except String SyncOutcome)
  | report
  | reply

inductive BackupStep where
  | pollShutdown
  | pollTriggers
  | skip
  | fails (msg : String)
  | start
  | announce
  | finish (now : ℕ) (result : Except String BackupSummary)
  | report

inductive WatchStep where
  | poll
  | fsChange
  | manual
  | backupDue
  | backupAsked
  | stop
  | stopBackups
  | dropSenders
  | request (job : Job)
  | enqueue (job : Job)
  | emit (e : UiEvent)
  | worker (w : WorkerStep)
  | backup (b : BackupStep)

/-- The events of a pass and of the log, which say nothing of the status. -/
def UiEvent.plain : UiEvent → Bool
  | .polled => true
  | .fileStarted _ _ _ => true
  | .fileProgress _ _ => true
  | .fileFinished _ => true
  | .actionCompleted _ _ => true
  | .log _ _ => true
  | _ => false

namespace Daemon

variable (humanBytes : ℕ → String)

def start (status : DaemonStatus) : Daemon :=
  ⟨true, none, [], [], .waiting, false, none, true, .waiting, false, status, [], [], [], []⟩

def send (d : Daemon) (e : UiEvent) : Daemon := { d with events := d.events ++ [e] }

def trySync (d : Daemon) : TrySend :=
  match d.worker, d.syncs with
  | .stopped, _ => .closed
  | _, none => .ok
  | _, some _ => .full

def trigger (d : Daemon) (t : Trigger) : Daemon :=
  match d.trySync with
  | .ok => { d with syncs := some t }
  | _ => d

def tryBackup (d : Daemon) : TrySend :=
  match d.backupWorker, d.backups with
  | .stopped, _ => .closed
  | _, none => .ok
  | _, some _ => .full

def triggerBackup (d : Daemon) (t : BackupTrigger) : Daemon :=
  match d.tryBackup with
  | .ok => { d with backups := some t }
  | _ => d

def receive (d : Daemon) (t : Trigger) (job : Option Job) : Daemon :=
  { d with worker := .received t job, passes := d.passes ++ [t] }

def stopWorker (d : Daemon) : Daemon :=
  { d with
    worker := .stopped
    shutdown := false
    syncs := none
    queued := []
    turnedAway := d.turnedAway ++ d.queued }

def enqueue (d : Daemon) (job : Job) : Option Daemon :=
  if job ∈ d.senders then
    match d.worker with
    | .stopped =>
        some { d with senders := d.senders.erase job, turnedAway := d.turnedAway ++ [job] }
    | _ =>
        if d.queued.length < residencyCapacity then
          some { d with senders := d.senders.erase job, queued := d.queued ++ [job] }
        else none
  else none

/-- `Worker::run` and `Worker::pass` -/
def work (d : Daemon) : WorkerStep → Option Daemon
  | .pollShutdown =>
      match d.worker with
      | .waiting => some (if d.shutdown then d.stopWorker else { d with worker := .notShutDown })
      | _ => none
  | .pollResidency =>
      match d.worker, d.queued with
      | .notShutDown, [] => some { d with worker := .noRequest }
      | .notShutDown, job :: rest => some ({ d with queued := rest }.receive .residency (some job))
      | _, _ => none
  | .pollSyncs =>
      match d.worker, d.syncs with
      | .noRequest, none => some { d with worker := .waiting }
      | .noRequest, some t => some ({ d with syncs := none }.receive t none)
      | _, _ => none
  | .start =>
      match d.worker with
      | .received t job => some { d with worker := .started t job, status := d.status.started t }
      | _ => none
  | .announce =>
      match d.worker with
      | .started t job => some ({ d with worker := .running t job }.send (.syncStarted t))
      | _ => none
  | .finish now result =>
      match d.worker with
      | .running _ job =>
          some { d with worker := .recorded ⟨now, result⟩ job, status := d.status.record ⟨now, result⟩ }
      | _ => none
  | .report =>
      match d.worker with
      | .recorded last none => some ({ d with worker := .waiting }.send (.syncFinished last))
      | .recorded last (some job) =>
          some ({ d with worker := .replying last.result job }.send (.syncFinished last))
      | _ => none
  | .reply =>
      match d.worker with
      | .replying result job =>
          some { d with
            worker := .waiting
            answered := d.answered ++ [(job, replyText humanBytes result job.request)] }
      | _ => none

/-- `BackupWorker::run` and `maybe_backup`; a scheduled backup may not be due. -/
def backUp (d : Daemon) : BackupStep → Option Daemon
  | .pollShutdown =>
      match d.backupWorker with
      | .waiting =>
          some (if d.backupShutdown then { d with backupWorker := .stopped, backupShutdown := false }
            else { d with backupWorker := .notShutDown })
      | _ => none
  | .pollTriggers =>
      match d.backupWorker, d.backups with
      | .notShutDown, some t => some { d with backupWorker := .received t, backups := none }
      | .notShutDown, none =>
          some { d with backupWorker := if d.backupSenders then .waiting else .stopped }
      | _, _ => none
  | .skip =>
      match d.backupWorker with
      | .received .scheduled => some { d with backupWorker := .waiting }
      | _ => none
  | .fails msg =>
      match d.backupWorker with
      | .received _ =>
          some ({ d with backupWorker := .waiting }.send (.log .error s!"backup check failed: {msg}"))
      | _ => none
  | .start =>
      match d.backupWorker with
      | .received _ => some { d with backupWorker := .started, status := d.status.backupStarted }
      | _ => none
  | .announce =>
      match d.backupWorker with
      | .started => some ({ d with backupWorker := .running }.send .backupStarted)
      | _ => none
  | .finish now result =>
      match d.backupWorker with
      | .running =>
          some { d with
            backupWorker := .recorded ⟨now, result⟩, status := d.status.recordBackup ⟨now, result⟩ }
      | _ => none
  | .report =>
      match d.backupWorker with
      | .recorded last => some ({ d with backupWorker := .waiting }.send (.backupFinished last))
      | _ => none

def step (d : Daemon) : WatchStep → Option Daemon
  | .poll => if d.looping then some ((d.send .polled).trigger .poll) else none
  | .fsChange => some (d.trigger .fsChange)
  | .manual => some (d.trigger .manual)
  | .backupDue => if d.looping then some (d.triggerBackup .scheduled) else none
  | .backupAsked => if d.backupSenders then some (d.triggerBackup .manual) else none
  | .stop => if d.looping then some { d with looping := false, shutdown := true } else none
  | .stopBackups => if d.looping then none else some { d with backupShutdown := true }
  | .dropSenders => if d.looping then none else some { d with backupSenders := false }
  | .request job => some { d with senders := d.senders ++ [job] }
  | .enqueue job => d.enqueue job
  | .emit e => if e.plain then some (d.send e) else none
  | .worker w => d.work humanBytes w
  | .backup b => d.backUp b

end Daemon

end FileMirror.Control
