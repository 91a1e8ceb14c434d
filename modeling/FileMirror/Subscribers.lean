import FileMirror.Displays
import FileMirror.WatchQueue

set_option autoImplicit false

namespace FileMirror.Control

open Overwrites Transitions

/-- The event that tells of the last update of the status. -/
def WorkerPhase.due : WorkerPhase → List UiEvent
  | .started p _ => [.syncStarted p]
  | .recorded last _ => [.syncFinished last]
  | _ => []

def BackupPhase.due : BackupPhase → List UiEvent
  | .started => [.backupStarted]
  | .recorded last => [.backupFinished last]
  | _ => []

theorem UiEvent.plain_writes {e : UiEvent} (h : e.plain = true) (c : Cell) : e.writes c = none := by
  cases e <;> cases c <;> first | rfl | cases h

namespace Daemon

variable {humanBytes : ℕ → String} {d t : Daemon} {a : WatchStep} {as : List WatchStep}

/-- What the status has and the hub was not sent yet. -/
def due (d : Daemon) : List UiEvent := d.worker.due ++ d.backupWorker.due

/-- The events since `start`, and those that are due, lead from `base` to the status. -/
def Follows (base : ∀ c : Cell, c.Held) (start : ℕ) (d : Daemon) : Prop :=
  replay UiEvent.writes base (d.events.drop start ++ d.due) = d.status.shows

/-- What a step sends and what it puts into the status, events that are due coming in between. -/
structure Tells (d t : Daemon) (sent news : List UiEvent) : Prop where
  events : t.events = d.events ++ sent
  status : t.status.shows = replay UiEvent.writes d.status.shows news
  due : ∀ s, replay UiEvent.writes s (sent ++ t.due) = replay UiEvent.writes s (d.due ++ news)

theorem Tells.nothing (hevents : t.events = d.events) (hstatus : t.status = d.status)
    (hworker : t.worker.due = d.worker.due)
    (hbackup : t.backupWorker.due = d.backupWorker.due) :
    Tells d t [] [] where
  events := by rw [hevents, List.append_nil]
  status := by
    rw [hstatus]
    rfl
  due s := by rw [Daemon.due, hworker, hbackup, List.append_nil, List.nil_append, Daemon.due]

theorem Tells.plain {e : UiEvent} (he : e.plain = true) (h : Tells d t [] []) :
    Tells d (t.send e) [e] [] where
  events := by
    change t.events ++ [e] = _
    rw [h.events, List.append_nil]
  status := h.status
  due s := by
    have hsame : overwrite UiEvent.writes s e = s := by
      funext c
      rw [overwrite, UiEvent.plain_writes he c]
      rfl
    have hdue := h.due s
    rw [List.nil_append] at hdue
    change replay UiEvent.writes (overwrite UiEvent.writes s e) t.due = _
    rw [hsame, hdue]

theorem due_apart (p : WorkerPhase) (b : BackupPhase) {e f : UiEvent} (he : e ∈ p.due)
    (hf : f ∈ b.due) (c : Cell) : e.writes c = none ∨ f.writes c = none := by
  cases p <;> simp only [WorkerPhase.due, List.mem_singleton, List.not_mem_nil] at he
  all_goals
    subst he
    cases b <;> simp only [BackupPhase.due, List.mem_singleton, List.not_mem_nil] at hf
    all_goals
      subst hf
      cases c <;> simp [UiEvent.writes]

theorem due_swap (p : WorkerPhase) (b : BackupPhase) (s : ∀ c : Cell, c.Held) :
    replay UiEvent.writes s (b.due ++ p.due) =
      replay UiEvent.writes s (p.due ++ b.due) := by
  have hone : p.due = [] ∨ ∃ e, p.due = [e] := by
    cases p with
    | started q job => exact .inr ⟨_, rfl⟩
    | recorded last job => exact .inr ⟨_, rfl⟩
    | _ => exact .inl rfl
  obtain hnone | ⟨e, he⟩ := hone
  · rw [hnone, List.append_nil, List.nil_append]
  · rw [replay_append, he]
    refine (replay_overwrite UiEvent.writes ?_).symm
    intro f hf c
    exact due_apart p b (he ▸ List.mem_singleton_self e) hf c

theorem Tells.update {e : UiEvent} (hevents : t.events = d.events)
    (hstatus : t.status.shows = overwrite UiEvent.writes d.status.shows e)
    (hdue : ∀ s, replay UiEvent.writes s t.due = replay UiEvent.writes s (d.due ++ [e])) :
    Tells d t [] [e] where
  events := by rw [hevents, List.append_nil]
  status := hstatus
  due := hdue

theorem Tells.news {e : UiEvent} (hevents : t.events = d.events ++ [e]) (hstatus : t.status = d.status)
    (hdue : ∀ s, replay UiEvent.writes s ([e] ++ t.due) = replay UiEvent.writes s d.due) :
    Tells d t [e] [] where
  events := hevents
  status := by
    rw [hstatus]
    rfl
  due s := by rw [hdue, List.append_nil]

theorem works_tells (h : Works humanBytes d t) : ∃ sent news, Tells d t sent news := by
  have hlast : ∀ {e : UiEvent}, d.worker.due = [] → t.worker.due = [e] →
      t.backupWorker = d.backupWorker → ∀ s, replay UiEvent.writes s t.due =
        replay UiEvent.writes s (d.due ++ [e]) := by
    intro e hbefore hafter hbackup s
    rw [Daemon.due, Daemon.due, hbefore, hbackup, List.nil_append, ← due_swap, hafter]
  have hfirst : ∀ {e : UiEvent}, d.worker.due = [e] → t.worker.due = [] →
      t.backupWorker = d.backupWorker → ∀ s, replay UiEvent.writes s ([e] ++ t.due) =
        replay UiEvent.writes s d.due := by
    intro e hbefore hafter hbackup s
    rw [Daemon.due, Daemon.due, hbefore, hafter, hbackup, List.nil_append]
  cases h with
  | stops hworker _ => exact ⟨_, _, .nothing rfl rfl (by rw [hworker]; rfl) rfl⟩
  | looks hworker _ => exact ⟨_, _, .nothing rfl rfl (by rw [hworker]; rfl) rfl⟩
  | passesOn hworker _ => exact ⟨_, _, .nothing rfl rfl (by rw [hworker]; rfl) rfl⟩
  | takesRequest hworker _ => exact ⟨_, _, .nothing rfl rfl (by rw [hworker]; rfl) rfl⟩
  | waits hworker _ => exact ⟨_, _, .nothing rfl rfl (by rw [hworker]; rfl) rfl⟩
  | takesTrigger hworker _ => exact ⟨_, _, .nothing rfl rfl (by rw [hworker]; rfl) rfl⟩
  | replies hworker => exact ⟨_, _, .nothing rfl rfl (by rw [hworker]; rfl) rfl⟩
  | starts hworker =>
      exact ⟨_, _, .update rfl DaemonStatus.shows_started (hlast (by rw [hworker]; rfl) rfl rfl)⟩
  | finishes hworker =>
      exact ⟨_, _, .update rfl DaemonStatus.shows_record (hlast (by rw [hworker]; rfl) rfl rfl)⟩
  | announces hworker =>
      exact ⟨_, _, .news rfl rfl (hfirst (by rw [hworker]; rfl) rfl rfl)⟩
  | reports hworker =>
      exact ⟨_, _, .news rfl rfl (hfirst (by rw [hworker]; rfl) rfl rfl)⟩
  | reportsFor hworker =>
      exact ⟨_, _, .news rfl rfl (hfirst (by rw [hworker]; rfl) rfl rfl)⟩

theorem backUp_tells {b : BackupStep} (h : d.backUp b = some t) : ∃ sent news, Tells d t sent news := by
  have hlast : ∀ {e : UiEvent} {u : Daemon}, d.backupWorker.due = [] → u.backupWorker.due = [e] →
      u.worker = d.worker → ∀ s, replay UiEvent.writes s u.due =
        replay UiEvent.writes s (d.due ++ [e]) := by
    intro e u hbefore hafter hworker s
    rw [Daemon.due, Daemon.due, hbefore, hafter, hworker, List.append_nil]
  have hfirst : ∀ {e : UiEvent} {u : Daemon}, d.backupWorker.due = [e] → u.backupWorker.due = [] →
      u.worker = d.worker → ∀ s, replay UiEvent.writes s ([e] ++ u.due) =
        replay UiEvent.writes s d.due := by
    intro e u hbefore hafter hworker s
    have hswap := due_swap d.worker d.backupWorker s
    rw [hbefore] at hswap
    rw [Daemon.due, Daemon.due, hbefore, hafter, hworker, List.append_nil, hswap]
  cases b with
  | pollShutdown =>
      simp only [backUp] at h
      split at h
      · rename_i hworker
        cases h
        refine ⟨_, _, .nothing ?_ ?_ ?_ ?_⟩ <;> split_ifs <;> first | rfl | (rw [hworker]; rfl)
      · cases h
  | pollTriggers =>
      simp only [backUp] at h
      split at h
      · rename_i hworker hbackups
        cases h
        exact ⟨_, _, .nothing rfl rfl rfl (by rw [hworker]; rfl)⟩
      · rename_i hworker hbackups
        cases h
        refine ⟨_, _, .nothing rfl rfl rfl ?_⟩
        rw [hworker]
        dsimp only
        split_ifs <;> rfl
      · cases h
  | skip =>
      simp only [backUp] at h
      split at h
      · rename_i hworker
        cases h
        exact ⟨_, _, .nothing rfl rfl rfl (by rw [hworker]; rfl)⟩
      · cases h
  | fails msg =>
      simp only [backUp] at h
      split at h
      · rename_i hworker
        cases h
        have hwaits : Tells d { d with backupWorker := .waiting } [] [] :=
          .nothing rfl rfl rfl (by rw [hworker]; rfl)
        exact ⟨_, _, hwaits.plain rfl⟩
      · cases h
  | start =>
      simp only [backUp] at h
      split at h
      · rename_i hworker
        cases h
        exact ⟨_, _, .update rfl DaemonStatus.shows_backupStarted
          (hlast (by rw [hworker]; rfl) rfl rfl)⟩
      · cases h
  | announce =>
      simp only [backUp] at h
      split at h
      · rename_i hworker
        cases h
        exact ⟨_, _, .news rfl rfl (hfirst (by rw [hworker]; rfl) rfl rfl)⟩
      · cases h
  | finish now result =>
      simp only [backUp] at h
      split at h
      · rename_i hworker
        cases h
        exact ⟨_, _, .update rfl DaemonStatus.shows_recordBackup
          (hlast (by rw [hworker]; rfl) rfl rfl)⟩
      · cases h
  | report =>
      simp only [backUp] at h
      split at h
      · rename_i hworker
        cases h
        exact ⟨_, _, .news rfl rfl (hfirst (by rw [hworker]; rfl) rfl rfl)⟩
      · cases h

theorem trigger_tells {p : Trigger} : Tells d (d.trigger p) [] [] := by
  unfold trigger
  split <;> exact .nothing rfl rfl rfl rfl

theorem step_tells (h : d.step humanBytes a = some t) : ∃ sent news, Tells d t sent news := by
  have hbackup : ∀ p, Tells d (d.triggerBackup p) [] [] := by
    intro p
    unfold triggerBackup
    split <;> exact .nothing rfl rfl rfl rfl
  cases a with
  | worker w => exact works_tells (works_of_work h)
  | backup b => exact backUp_tells h
  | poll =>
      simp only [step] at h
      split_ifs at h
      cases h
      have hsame : (d.send .polled).trigger .poll = (d.trigger .poll).send .polled := by
        unfold trigger
        cases hopen : d.trySync with
        | ok => rw [show (d.send .polled).trySync = .ok from hopen]; rfl
        | full => rw [show (d.send .polled).trySync = .full from hopen]
        | closed => rw [show (d.send .polled).trySync = .closed from hopen]
      rw [hsame]
      exact ⟨_, _, trigger_tells.plain rfl⟩
  | fsChange =>
      cases h
      exact ⟨_, _, trigger_tells⟩
  | manual =>
      cases h
      exact ⟨_, _, trigger_tells⟩
  | backupDue =>
      simp only [step] at h
      split_ifs at h
      cases h
      exact ⟨_, _, hbackup _⟩
  | backupAsked =>
      simp only [step] at h
      split_ifs at h
      cases h
      exact ⟨_, _, hbackup _⟩
  | request job =>
      cases h
      exact ⟨_, _, .nothing rfl rfl rfl rfl⟩
  | enqueue job =>
      simp only [step, enqueue] at h
      split at h
      · split at h
        · cases h
          exact ⟨_, _, .nothing rfl rfl rfl rfl⟩
        · split at h <;> cases h
          exact ⟨_, _, .nothing rfl rfl rfl rfl⟩
      · cases h
  | emit e =>
      simp only [step] at h
      split_ifs at h with he
      cases h
      have hnothing : Tells d d [] [] := .nothing rfl rfl rfl rfl
      exact ⟨_, _, hnothing.plain he⟩
  | _ =>
      simp only [step] at h
      split_ifs at h
      cases h
      exact ⟨_, _, .nothing rfl rfl rfl rfl⟩

theorem follows_step {base : ∀ c : Cell, c.Held} {start : ℕ} (hstart : start ≤ d.events.length)
    (h : d.step humanBytes a = some t) (hd : Follows base start d) : Follows base start t := by
  obtain ⟨sent, news, htells⟩ := step_tells h
  unfold Follows at hd ⊢
  rw [replay_append] at hd
  rw [htells.events, List.drop_append_of_le_length hstart, List.append_assoc, replay_append,
    htells.due, replay_append, hd, htells.status]

theorem follows_from {base : ∀ c : Cell, c.Held} (start : ℕ) (hd : Follows base 0 d) :
    Follows (replay UiEvent.writes base (d.events.take start)) start d := by
  unfold Follows at hd ⊢
  rw [← replay_append, ← List.append_assoc, List.take_append_drop]
  exact hd

theorem follows_again {base : ∀ c : Cell, c.Held} {start : ℕ} (hd : Follows base start d) :
    Follows d.status.shows start d := by
  unfold Follows at hd ⊢
  rw [← hd, replay_replay]

end Daemon

def channelCapacity : ℕ := 4096

def lagged (n : ℕ) : UiEvent := .log .warn s!"display fell behind; skipped {n} events"

/-- A subscription: where its reading began, or began again after a skip, the event that is next, and
what was read before that and since, with the times. -/
structure Client where
  since : ℕ
  next : ℕ
  hello : Option (Snapshot × ℕ)
  before : List (UiEvent × ℕ)
  read : List (UiEvent × ℕ)

namespace Client

def subscribe (events : List UiEvent) : Client := ⟨events.length, events.length, none, [], []⟩

/-- What `recv` gives next, if there is anything. -/
def recv (c : Client) (events : List UiEvent) (now : ℕ) : Option Client :=
  if c.next + channelCapacity < events.length then
    let oldest := events.length - channelCapacity
    some { c with
      since := oldest, next := oldest, read := []
      before := c.before ++ c.read ++ [(lagged (oldest - c.next), now)] }
  else
    events[c.next]?.map fun e => { c with next := c.next + 1, read := c.read ++ [(e, now)] }

/-- The menu bar, which was `s` before it subscribed. -/
def tray (c : Client) (s : TrayState) : TrayState :=
  c.hello.elim s fun hello =>
    (c.before ++ c.read).foldl (fun s e => s.apply e.2 (.event e.1)) (s.apply hello.2 (.connected hello.1))

/-- The dashboard, which was `a` before it subscribed. -/
def app (format : Format) (c : Client) (a : App) : App :=
  c.hello.elim a fun hello =>
    (c.before ++ c.read).foldl (fun a e => a.applyAt format e.2 e.1)
      (a.applyAt format hello.2 (.hello hello.1))

variable {c : Client} {s : TrayState} {a : App} {format : Format} {hello : Snapshot × ℕ}

theorem tray_shows (h : c.hello = some hello) : (c.tray s).shows =
    replay UiEvent.writes hello.1.shows ((c.before ++ c.read).map Prod.fst) := by
  have hfold : ∀ (es : List (UiEvent × ℕ)) (s : TrayState),
      (es.foldl (fun s e => s.apply e.2 (.event e.1)) s).shows =
        replay UiEvent.writes s.shows (es.map Prod.fst) := by
    intro es
    induction es with
    | nil => exact fun s => rfl
    | cons e es ih =>
        intro s
        rw [List.foldl_cons, ih, List.map_cons, replay_cons]
        exact congrArg (fun v => replay UiEvent.writes v (es.map Prod.fst)) TrayState.shows_applyEvent
  rw [tray, h, Option.elim_some, hfold]
  exact congrArg (fun v => replay UiEvent.writes v _) TrayState.shows_connect

theorem app_shows (h : c.hello = some hello) : (c.app format a).shows =
    replay UiEvent.writes hello.1.shows ((c.before ++ c.read).map Prod.fst) := by
  have hfold : ∀ (es : List (UiEvent × ℕ)) (a : App),
      (es.foldl (fun a e => a.applyAt format e.2 e.1) a).shows =
        replay UiEvent.writes a.shows (es.map Prod.fst) := by
    intro es
    induction es with
    | nil => exact fun a => rfl
    | cons e es ih =>
        intro a
        rw [List.foldl_cons, ih, List.map_cons, replay_cons, App.shows_applyAt]
  rw [app, h, Option.elim_some, hfold, App.shows_hello]

end Client

structure Audience (ι : Type*) where
  daemon : Daemon
  clients : ι → Option Client

inductive AudienceStep (ι : Type*) where
  | daemon (a : WatchStep)
  | subscribe (i : ι)
  | greet (i : ι) (now : ℕ)
  | recv (i : ι) (now : ℕ)
  | leave (i : ι)

namespace Audience

variable {ι : Type*} [DecidableEq ι] (humanBytes : ℕ → String)

def start (status : DaemonStatus) : Audience ι := ⟨.start status, fun _ => none⟩

def seat (w : Audience ι) (i : ι) (c : Option Client) : Audience ι :=
  { w with clients := Function.update w.clients i c }

/-- A connection subscribes before it takes the snapshot. -/
def step (w : Audience ι) : AudienceStep ι → Option (Audience ι)
  | .daemon a => (w.daemon.step humanBytes a).map fun daemon => { w with daemon }
  | .subscribe i =>
      match w.clients i with
      | none => some (w.seat i (some (.subscribe w.daemon.events)))
      | some _ => none
  | .greet i now =>
      match w.clients i with
      | some ⟨since, next, none, before, read⟩ =>
          some (w.seat i (some ⟨since, next, some (w.daemon.status.snapshot, now), before, read⟩))
      | _ => none
  | .recv i now =>
      match w.clients i with
      | some ⟨since, next, some hello, before, read⟩ =>
          (Client.recv ⟨since, next, some hello, before, read⟩ w.daemon.events now).map fun c =>
            w.seat i (some c)
      | _ => none
  | .leave i => some (w.seat i none)

variable {humanBytes} {w v : Audience ι} {a : AudienceStep ι} {as : List (AudienceStep ι)}

theorem seat_self {i : ι} {c : Option Client} : (w.seat i c).clients i = c :=
  Function.update_self ..

theorem seat_of_ne {i j : ι} {c : Option Client} (h : j ≠ i) :
    (w.seat i c).clients j = w.clients j :=
  Function.update_of_ne h ..

/-- What holds of a connection: it has read the events from `since` on, and unless it has skipped
some, they lead from its snapshot to the status. -/
structure Attends (d : Daemon) (c : Client) : Prop where
  reads : d.events.drop c.since = c.read.map Prod.fst ++ d.events.drop c.next
  since : c.since ≤ d.events.length
  next : c.next ≤ d.events.length
  silent : c.hello = none → c.before = [] ∧ c.read = []
  follows : ∀ hello, c.hello = some hello → c.before = [] → d.Follows hello.1.shows c.since

theorem Attends.step {d t : Daemon} {c : Client} {b : WatchStep} (hc : Attends d c)
    (h : d.step humanBytes b = some t) : Attends t c := by
  obtain ⟨sent, hsent⟩ := Daemon.events_step h
  have hlength : d.events.length ≤ t.events.length := by
    rw [← hsent, List.length_append]
    exact Nat.le_add_right ..
  refine ⟨?_, hc.since.trans hlength, hc.next.trans hlength, hc.silent, fun hello hhello hbefore => ?_⟩
  · rw [← hsent, List.drop_append_of_le_length hc.since, List.drop_append_of_le_length hc.next,
      hc.reads, List.append_assoc]
  · exact Daemon.follows_step hc.since h (hc.follows hello hhello hbefore)

theorem Attends.subscribe {d : Daemon} : Attends d (.subscribe d.events) :=
  ⟨rfl, le_rfl, le_rfl, fun _ => ⟨rfl, rfl⟩, fun hello hhello => by cases hhello⟩

theorem Attends.recv {d : Daemon} {c c' : Client} {now : ℕ} (hc : Attends d c)
    (hhello : c.hello.isSome) (h : c.recv d.events now = some c') : Attends d c' := by
  unfold Client.recv at h
  split_ifs at h with hfar
  · obtain rfl := Option.some.inj h
    refine ⟨(List.nil_append _).symm, Nat.sub_le .., Nat.sub_le .., fun hnone => ?_,
      fun hello _ hbefore => ?_⟩
    · rw [hnone] at hhello
      cases hhello
    · exact absurd hbefore (List.append_ne_nil_of_right_ne_nil _ (by simp))
  · obtain ⟨e, he, rfl⟩ := Option.map_eq_some_iff.mp h
    obtain ⟨hlt, hget⟩ := List.getElem?_eq_some_iff.mp he
    refine ⟨?_, hc.since, hlt, fun hnone => ?_, hc.follows⟩
    · rw [hc.reads, List.drop_eq_getElem_cons hlt, hget, List.map_append, List.append_assoc]
      rfl
    · rw [hnone] at hhello
      cases hhello

/-- The events lead from the first status to the one there is, and every connection attends. -/
structure Attended (base : ∀ c : Cell, c.Held) (w : Audience ι) : Prop where
  daemon : w.daemon.Follows base 0
  clients : ∀ i c, w.clients i = some c → Attends w.daemon c

theorem Attended.seat {base : ∀ c : Cell, c.Held} {i : ι} {c : Option Client}
    (hw : Attended base w) (hc : ∀ c', c = some c' → Attends w.daemon c') :
    Attended base (w.seat i c) := by
  refine ⟨hw.daemon, fun j c' hj => ?_⟩
  by_cases hij : j = i
  · subst hij
    rw [seat_self] at hj
    exact hc c' hj
  · rw [seat_of_ne hij] at hj
    exact hw.clients j c' hj

theorem Attended.step {base : ∀ c : Cell, c.Held} (hw : Attended base w)
    (h : w.step humanBytes a = some v) : Attended base v := by
  cases a with
  | daemon b =>
      obtain ⟨t, ht, rfl⟩ := Option.map_eq_some_iff.mp h
      exact ⟨Daemon.follows_step (Nat.zero_le _) ht hw.daemon,
        fun i c hc => (hw.clients i c hc).step ht⟩
  | subscribe i =>
      simp only [Audience.step] at h
      split at h
      · cases h
        exact hw.seat fun c' hc' => by cases hc'; exact .subscribe
      · cases h
  | greet i now =>
      simp only [Audience.step] at h
      split at h
      · rename_i since next before read hclient
        cases h
        have hc := hw.clients i _ hclient
        refine hw.seat fun c' hc' => ?_
        cases hc'
        refine ⟨hc.reads, hc.since, hc.next, (fun hnone => by cases hnone), fun hello hhello _ => ?_⟩
        cases hhello
        exact Daemon.follows_again (Daemon.follows_from since hw.daemon)
      · cases h
  | recv i now =>
      simp only [Audience.step] at h
      split at h
      · rename_i since next hello before read hclient
        obtain ⟨c', hc', rfl⟩ := Option.map_eq_some_iff.mp h
        refine hw.seat fun c'' hc'' => ?_
        cases hc''
        exact (hw.clients i _ hclient).recv rfl hc'
      · cases h
  | leave i =>
      cases h
      exact hw.seat fun c' hc' => by cases hc'

/-- A subscriber that has read all events shows the daemon's status, once the workers have told what
they did: in every cell, unless it has skipped events and none that it read since is about the cell. -/
theorem subscriber_agrees {status : DaemonStatus} {i : ι} {c : Client} {cell : Cell}
    (h : Runs (step humanBytes) Unguarded (start status) as w) (hc : w.clients i = some c)
    (hhello : c.hello.isSome) (hnext : c.next = w.daemon.events.length) (hdue : w.daemon.due = [])
    (hread : c.before = [] ∨ ∃ e ∈ c.read, (e.1.writes cell).isSome)
    (s : TrayState) (format : Format) (a : App) :
    (c.tray s).shows cell = w.daemon.status.shows cell ∧
      (c.app format a).shows cell = w.daemon.status.shows cell := by
  have hattended : Attended status.shows w := by
    refine h.invariant ?_ fun w a v hw _ hstep => Attended.step hw hstep
    exact ⟨rfl, fun j c hj => by cases hj⟩
  have hattends := hattended.clients i c hc
  obtain ⟨hello, hhello⟩ := Option.isSome_iff_exists.mp hhello
  have hall : w.daemon.events.drop c.since = c.read.map Prod.fst := by
    rw [hattends.reads, hnext, List.drop_length, List.append_nil]
  suffices hshows : replay UiEvent.writes hello.1.shows ((c.before ++ c.read).map Prod.fst) cell =
      w.daemon.status.shows cell by
    rw [Client.tray_shows hhello, Client.app_shows hhello]
    exact ⟨hshows, hshows⟩
  obtain hbefore | ⟨e, he, hwrites⟩ := hread
  · have hfollows := hattends.follows hello hhello hbefore
    unfold Daemon.Follows at hfollows
    rw [hdue, List.append_nil, hall] at hfollows
    rw [hbefore, List.nil_append, hfollows]
  · have hfollows := Daemon.follows_from c.since hattended.daemon
    unfold Daemon.Follows at hfollows
    rw [hdue, List.append_nil, hall] at hfollows
    have hlast : (last UiEvent.writes (c.read.map Prod.fst) cell).isSome :=
      (last_isSome UiEvent.writes).mpr ⟨e.1, List.mem_map_of_mem he, hwrites⟩
    rw [List.map_append, replay_missed UiEvent.writes hlast, hfollows]

/-- A connection comes between an update and its event, and hears of the pass in both. -/
theorem subscriber_agrees_between : ∃ (w : Audience Unit) (c : Client), w.clients () = some c ∧
    c.hello = some ((Daemon.quietStatus.started .manual).snapshot, 5) ∧
    c.read = [(.syncStarted .manual, 6)] ∧
    (c.tray (.new none)).shows .syncing = w.daemon.status.shows .syncing ∧
    w.daemon.status.shows .syncing = some .manual := by
  have hrun : execute (step fun _ => "") (start Daemon.quietStatus : Audience Unit)
      [.daemon .manual, .daemon (.worker .pollShutdown), .daemon (.worker .pollResidency),
        .daemon (.worker .pollSyncs), .daemon (.worker .start), .subscribe (), .greet () 5,
        .daemon (.worker .announce), .recv () 6] =
      some ⟨{ Daemon.start Daemon.quietStatus with
          worker := .running .manual none, status := Daemon.quietStatus.started .manual
          events := [.syncStarted .manual], passes := [.manual] },
        fun _ => some ⟨0, 1, some ((Daemon.quietStatus.started .manual).snapshot, 5), [],
          [(.syncStarted .manual, 6)]⟩⟩ := rfl
  obtain ⟨htray, -⟩ := @subscriber_agrees Unit _ (fun _ => "") _ _ Daemon.quietStatus () _ .syncing
    (execute_runs hrun) rfl rfl rfl rfl (.inl rfl) (.new none) ⟨fun _ => "", fun _ => ""⟩ .default
  exact ⟨_, _, rfl, rfl, rfl, htray, rfl⟩

end Audience

end FileMirror.Control
