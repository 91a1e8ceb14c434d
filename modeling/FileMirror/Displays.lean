import FileMirror.Control

set_option autoImplicit false

namespace FileMirror.Control

open Overwrites

structure Transfer where
  path : String
  total : ℕ
  done : ℕ
  deriving DecidableEq

abbrev TransferMap := Std.ExtTreeMap ℕ Transfer

inductive Connection where
  | connecting
  | connected
  | notRunning
  | incompatible (reply : String)
  | unconfigured (why : String)
  | failed (why : String)
  deriving DecidableEq

structure Recent where
  path : String
  kind : ActionKind
  deriving DecidableEq

def recentCap : ℕ := 8

inductive TrayInput where
  | connected (hello : Snapshot)
  | event (e : UiEvent)
  | lost (connection : Connection)

structure TrayState where
  connection : Connection
  root : Option String
  syncing : Option (Trigger × ℕ)
  lastSync : Option LastSync
  backingUp : Option ℕ
  lastBackup : Option LastBackup
  transfers : TransferMap
  recent : List Recent
  serviceInstalled : Bool

namespace TrayState

def new (root : Option String) : TrayState :=
  ⟨.connecting, root, none, none, none, none, ∅, [], false⟩

def connect (s : TrayState) (hello : Snapshot) (now : ℕ) : TrayState :=
  { s with
    connection := .connected
    syncing := hello.syncing.map fun trigger => (trigger, now)
    lastSync := hello.last
    backingUp := if hello.backingUp then some now else none
    lastBackup := hello.lastBackup
    root := some hello.root
    transfers := ∅ }

def applyEvent (s : TrayState) (now : ℕ) : UiEvent → TrayState
  | .hello hello => s.connect hello now
  | .syncStarted trigger => { s with syncing := some (trigger, now) }
  | .syncFinished last => { s with syncing := none, transfers := ∅, lastSync := some last }
  | .backupStarted => { s with backingUp := some now }
  | .backupFinished last => { s with backingUp := none, lastBackup := some last }
  | .fileStarted id path total => { s with transfers := s.transfers.insert id ⟨path, total, 0⟩ }
  | .fileProgress id done =>
      { s with transfers := s.transfers.modify id fun transfer => { transfer with done } }
  | .fileFinished id => { s with transfers := s.transfers.erase id }
  | .actionCompleted path kind => { s with recent := (⟨path, kind⟩ :: s.recent).take recentCap }
  | .polled => s
  | .log _ _ => s

def apply (s : TrayState) (now : ℕ) : TrayInput → TrayState
  | .connected hello => s.connect hello now
  | .lost connection => { s with connection, syncing := none, backingUp := none, transfers := ∅ }
  | .event e => s.applyEvent now e

/-- What the tray has of the status, without the times at which it heard of it. -/
def shows (s : TrayState) : ∀ c : Cell, c.Held
  | .syncing => s.syncing.map Prod.fst
  | .last => s.lastSync
  | .backingUp => s.backingUp.isSome
  | .lastBackup => s.lastBackup

variable {s : TrayState} {now : ℕ} {e : UiEvent} {hello : Snapshot}

theorem shows_connect : (s.connect hello now).shows = hello.shows := by
  funext c
  cases c with
  | syncing => cases h : hello.syncing <;> simp [connect, shows, Snapshot.shows, h]
  | last => rfl
  | backingUp => cases h : hello.backingUp <;> simp [connect, shows, Snapshot.shows, h]
  | lastBackup => rfl

theorem shows_applyEvent : (s.applyEvent now e).shows = overwrite UiEvent.writes s.shows e := by
  cases e with
  | hello hello => exact shows_connect
  | _ =>
      funext c
      cases c <;> rfl

end TrayState

inductive EntryKind where
  | action (kind : ActionKind) (path : String)
  | log (level : LogLevel) (msg : String)
  | synced (text : String)
  | failed (text : String)

structure Line where
  clock : String
  kind : EntryKind

structure Totals where
  uploads : ℕ
  downloads : ℕ
  bytes : ℕ
  deriving DecidableEq

def activityCap : ℕ := 500

/-- `clock` formats a time, `humanBytes` a size. -/
structure Format where
  clock : ℕ → String
  humanBytes : ℕ → String

/-- `scroll` counts the lines below the view; 0 follows new output. -/
structure App where
  snapshot : Option Snapshot
  syncing : Option (Trigger × ℕ)
  last : Option LastSync
  lastPoll : Option ℕ
  backingUp : Option ℕ
  lastBackup : Option LastBackup
  transfers : TransferMap
  activity : List Line
  scroll : ℕ
  connected : Bool
  totals : Totals

namespace App

variable (format : Format)

def default : App := ⟨none, none, none, none, none, none, ∅, [], 0, true, ⟨0, 0, 0⟩⟩

def maxScroll (a : App) : ℕ := a.activity.length - 1

def push (a : App) (kind : EntryKind) (now : ℕ) : App :=
  let activity := a.activity ++ [⟨format.clock now, kind⟩]
  let activity := if activityCap < activity.length then activity.tail else activity
  let a := { a with activity }
  if 0 < a.scroll then { a with scroll := min (a.scroll + 1) a.maxScroll } else a

def finishFile (a : App) (id : ℕ) : App :=
  match a.transfers[id]? with
  | some transfer =>
      { a with
        transfers := a.transfers.erase id
        totals := { a.totals with bytes := a.totals.bytes + transfer.done } }
  | none => a

def count (a : App) : ActionKind → App
  | .upload => { a with totals := { a.totals with uploads := a.totals.uploads + 1 } }
  | .download => { a with totals := { a.totals with downloads := a.totals.downloads + 1 } }
  | .hydrate => { a with totals := { a.totals with downloads := a.totals.downloads + 1 } }
  | _ => a

def applyAt (a : App) (now : ℕ) : UiEvent → App
  | .hello snapshot =>
      { a with
        syncing := snapshot.syncing.map fun trigger => (trigger, now)
        last := snapshot.last
        backingUp := if snapshot.backingUp then some now else none
        lastBackup := snapshot.lastBackup
        snapshot := some snapshot }
  | .polled => { a with lastPoll := some now }
  | .syncStarted trigger => { a with syncing := some (trigger, now) }
  | .syncFinished last =>
      let a := { a with syncing := none, transfers := ∅ }
      let a :=
        match last.result with
        | .ok outcome =>
            if outcome.isNoop then a
            else a.push format (.synced (outcome.summary format.humanBytes)) now
        | .error e => a.push format (.failed e) now
      { a with last := some last }
  | .backupStarted => { a with backingUp := some now }
  | .backupFinished last =>
      let entry :=
        match last.result with
        | .ok summary => .log .info s!"backup: {summary.text format.humanBytes}"
        | .error e => .failed s!"backup: {e}"
      { ({ a with backingUp := none } : App).push format entry now with lastBackup := some last }
  | .fileStarted id path total => { a with transfers := a.transfers.insert id ⟨path, total, 0⟩ }
  | .fileProgress id done =>
      { a with transfers := a.transfers.modify id fun transfer => { transfer with done } }
  | .fileFinished id => a.finishFile id
  | .actionCompleted path kind => (a.count kind).push format (.action kind path) now
  | .log level msg => a.push format (.log level msg) now

/-- What the dashboard has of the status, without the times at which it heard of it. -/
def shows (a : App) : ∀ c : Cell, c.Held
  | .syncing => a.syncing.map Prod.fst
  | .last => a.last
  | .backingUp => a.backingUp.isSome
  | .lastBackup => a.lastBackup

variable {format} {a : App} {now : ℕ} {e : UiEvent} {kind : EntryKind}

theorem push_frame : (a.push format kind now).syncing = a.syncing ∧
    (a.push format kind now).last = a.last ∧ (a.push format kind now).backingUp = a.backingUp ∧
    (a.push format kind now).lastBackup = a.lastBackup ∧
    (a.push format kind now).transfers = a.transfers ∧
    (a.push format kind now).totals = a.totals := by
  unfold push
  dsimp only
  split_ifs <;> exact ⟨rfl, rfl, rfl, rfl, rfl, rfl⟩

theorem shows_push : (a.push format kind now).shows = a.shows := by
  obtain ⟨hsyncing, hlast, hbackingUp, hlastBackup, -, -⟩ := @push_frame format a now kind
  funext c
  cases c with
  | syncing => simp [shows, hsyncing]
  | last => simp [shows, hlast]
  | backingUp => simp [shows, hbackingUp]
  | lastBackup => simp [shows, hlastBackup]

theorem shows_hello {snapshot : Snapshot} :
    (a.applyAt format now (.hello snapshot)).shows = snapshot.shows := by
  funext c
  cases c with
  | syncing => cases h : snapshot.syncing <;> simp [applyAt, shows, Snapshot.shows, h]
  | last => rfl
  | backingUp => cases h : snapshot.backingUp <;> simp [applyAt, shows, Snapshot.shows, h]
  | lastBackup => rfl

theorem shows_syncFinished {last : LastSync} : (a.applyAt format now (.syncFinished last)).shows =
    overwrite UiEvent.writes a.shows (.syncFinished last) := by
  have hshows : ∀ b : App, b.shows = ({ a with syncing := none, transfers := ∅ } : App).shows →
      ({ b with last := some last } : App).shows =
        overwrite UiEvent.writes a.shows (.syncFinished last) := by
    intro b hb
    funext c
    have hc := congrFun hb c
    cases c with
    | last => rfl
    | syncing => exact hc
    | backingUp => exact hc
    | lastBackup => exact hc
  unfold applyAt
  apply hshows
  split
  · split_ifs
    · rfl
    · exact shows_push
  · exact shows_push

theorem shows_backupFinished {last : LastBackup} :
    (a.applyAt format now (.backupFinished last)).shows =
      overwrite UiEvent.writes a.shows (.backupFinished last) := by
  have hshows : ∀ b : App, b.shows = ({ a with backingUp := none } : App).shows →
      ({ b with lastBackup := some last } : App).shows =
        overwrite UiEvent.writes a.shows (.backupFinished last) := by
    intro b hb
    funext c
    have hc := congrFun hb c
    cases c with
    | lastBackup => rfl
    | syncing => exact hc
    | last => exact hc
    | backingUp => exact hc
  unfold applyAt
  exact hshows _ shows_push

theorem shows_applyAt :
    (a.applyAt format now e).shows = overwrite UiEvent.writes a.shows e := by
  have hplain : ∀ b : App, b.shows = a.shows → (∀ c, e.writes c = none) →
      b.shows = overwrite UiEvent.writes a.shows e := by
    intro b hb hwrites
    funext c
    rw [hb, overwrite, hwrites c]
    rfl
  cases e with
  | hello snapshot => exact shows_hello
  | syncFinished last => exact shows_syncFinished
  | backupFinished last => exact shows_backupFinished
  | fileFinished id =>
      apply hplain
      · change (a.finishFile id).shows = a.shows
        unfold finishFile
        split <;> rfl
      · exact fun c => by cases c <;> rfl
  | actionCompleted path kind =>
      apply hplain
      · change ((a.count kind).push format _ now).shows = a.shows
        rw [shows_push]
        cases kind <;> rfl
      · exact fun c => by cases c <;> rfl
  | log level msg =>
      apply hplain
      · exact shows_push
      · exact fun c => by cases c <;> rfl
  | _ =>
      funext c
      cases c <;> rfl

end App

end FileMirror.Control
