import FileMirror.Watch

set_option autoImplicit false

namespace FileMirror.Control

open Transitions

def WorkerPhase.distance : WorkerPhase → ℕ
  | .waiting => 3
  | .notShutDown => 2
  | .noRequest => 1
  | .received _ job => 7 + job.toList.length
  | .started _ job => 6 + job.toList.length
  | .running _ job => 5 + job.toList.length
  | .recorded _ job => 4 + job.toList.length
  | .replying _ _ => 4
  | .stopped => 0

/-- The steps that are left to the worker once it is told to stop. -/
def WorkerPhase.left : WorkerPhase → ℕ
  | .waiting => 1
  | .notShutDown => 7
  | .noRequest => 6
  | .received _ job => 5 + job.toList.length
  | .started _ job => 4 + job.toList.length
  | .running _ job => 3 + job.toList.length
  | .recorded _ job => 2 + job.toList.length
  | .replying _ _ => 2
  | .stopped => 0

/-- A poll that has seen no permit may still find work. -/
def WorkerPhase.polling : WorkerPhase → Bool
  | .notShutDown => true
  | .noRequest => true
  | _ => false

def WorkerPhase.job : WorkerPhase → Option Job
  | .received _ job => job
  | .started _ job => job
  | .running _ job => job
  | .recorded _ job => job
  | .replying _ job => some job
  | _ => none

namespace Daemon

variable {humanBytes : ℕ → String} {d t : Daemon} {a : WatchStep} {as : List WatchStep}
  {w : WorkerStep} {p : Trigger}

inductive Works (humanBytes : ℕ → String) (d : Daemon) : Daemon → Prop where
  | stops (hworker : d.worker = .waiting) (hshutdown : d.shutdown = true) :
      Works humanBytes d d.stopWorker
  | looks (hworker : d.worker = .waiting) (hshutdown : d.shutdown = false) :
      Works humanBytes d { d with worker := .notShutDown }
  | passesOn (hworker : d.worker = .notShutDown) (hqueued : d.queued = []) :
      Works humanBytes d { d with worker := .noRequest }
  | takesRequest {job : Job} {rest : List Job} (hworker : d.worker = .notShutDown)
      (hqueued : d.queued = job :: rest) :
      Works humanBytes d ({ d with queued := rest }.receive .residency (some job))
  | waits (hworker : d.worker = .noRequest) (hsyncs : d.syncs = none) :
      Works humanBytes d { d with worker := .waiting }
  | takesTrigger {p : Trigger} (hworker : d.worker = .noRequest) (hsyncs : d.syncs = some p) :
      Works humanBytes d ({ d with syncs := none }.receive p none)
  | starts {p : Trigger} {job : Option Job} (hworker : d.worker = .received p job) :
      Works humanBytes d { d with worker := .started p job, status := d.status.started p }
  | announces {p : Trigger} {job : Option Job} (hworker : d.worker = .started p job) :
      Works humanBytes d ({ d with worker := .running p job }.send (.syncStarted p))
  | finishes {p : Trigger} {job : Option Job} {last : LastSync}
      (hworker : d.worker = .running p job) :
      Works humanBytes d { d with worker := .recorded last job, status := d.status.record last }
  | reports {last : LastSync} (hworker : d.worker = .recorded last none) :
      Works humanBytes d ({ d with worker := .waiting }.send (.syncFinished last))
  | reportsFor {last : LastSync} {job : Job} (hworker : d.worker = .recorded last (some job)) :
      Works humanBytes d
        ({ d with worker := .replying last.result job }.send (.syncFinished last))
  | replies {result : Except String SyncOutcome} {job : Job}
      (hworker : d.worker = .replying result job) :
      Works humanBytes d { d with
        worker := .waiting
        answered := d.answered ++ [(job, replyText humanBytes result job.request)] }

theorem works_of_work (h : d.work humanBytes w = some t) : Works humanBytes d t := by
  cases w with
  | pollShutdown =>
      simp only [work] at h
      split at h
      · rename_i hworker
        cases h
        split_ifs with hshutdown
        · exact .stops hworker hshutdown
        · exact .looks hworker (Bool.eq_false_iff.mpr hshutdown)
      · cases h
  | pollResidency =>
      simp only [work] at h
      split at h
      · rename_i hworker hqueued
        cases h
        exact .passesOn hworker hqueued
      · rename_i hworker hqueued
        cases h
        exact .takesRequest hworker hqueued
      · cases h
  | pollSyncs =>
      simp only [work] at h
      split at h
      · rename_i hworker hsyncs
        cases h
        exact .waits hworker hsyncs
      · rename_i hworker hsyncs
        cases h
        exact .takesTrigger hworker hsyncs
      · cases h
  | start =>
      simp only [work] at h
      split at h
      · rename_i hworker
        cases h
        exact .starts hworker
      · cases h
  | announce =>
      simp only [work] at h
      split at h
      · rename_i hworker
        cases h
        exact .announces hworker
      · cases h
  | finish now result =>
      simp only [work] at h
      split at h
      · rename_i hworker
        cases h
        exact .finishes hworker
      · cases h
  | report =>
      simp only [work] at h
      split at h
      · rename_i hworker
        cases h
        exact .reports hworker
      · rename_i hworker
        cases h
        exact .reportsFor hworker
      · cases h
  | reply =>
      simp only [work] at h
      split at h
      · rename_i hworker
        cases h
        exact .replies hworker
      · cases h

structure Leaves (d t : Daemon) : Prop where
  worker : t.worker = d.worker
  passes : t.passes = d.passes
  syncs : ∀ p, d.syncs = some p → t.syncs = some p
  shutdown : d.shutdown = true → t.shutdown = true
  answered : t.answered = d.answered
  room : d.queued.length ≤ residencyCapacity → t.queued.length ≤ residencyCapacity

theorem Leaves.refl : Leaves d d := ⟨rfl, rfl, fun _ => id, id, rfl, id⟩

theorem trigger_leaves : Leaves d (d.trigger p) := by
  unfold trigger
  split
  · rename_i hok
    refine ⟨rfl, rfl, ?_, id, rfl, id⟩
    intro q hq
    unfold trySync at hok
    rw [hq] at hok
    split at hok <;> simp_all
  · exact .refl

theorem triggerBackup_leaves {b : BackupTrigger} : Leaves d (d.triggerBackup b) := by
  unfold triggerBackup
  split
  · exact ⟨rfl, rfl, fun _ => id, id, rfl, id⟩
  · exact .refl

theorem enqueue_leaves {job : Job} (h : d.enqueue job = some t) : Leaves d t := by
  unfold enqueue at h
  split at h
  · split at h
    · cases h
      exact ⟨rfl, rfl, fun _ => id, id, rfl, id⟩
    · split at h
      · rename_i hroom
        cases h
        refine ⟨rfl, rfl, fun _ => id, id, rfl, fun _ => ?_⟩
        rw [List.length_append]
        exact hroom
      · cases h
  · cases h

theorem backUp_leaves {b : BackupStep} (h : d.backUp b = some t) : Leaves d t := by
  cases b <;> simp only [backUp] at h <;> split at h <;> cases h
  all_goals first
    | exact ⟨rfl, rfl, fun _ => id, id, rfl, id⟩
    | (split_ifs <;> exact ⟨rfl, rfl, fun _ => id, id, rfl, id⟩)

theorem step_cases (h : d.step humanBytes a = some t) :
    (∃ w, a = .worker w ∧ Works humanBytes d t) ∨ (∀ w, a ≠ .worker w) ∧ Leaves d t := by
  have hother : ∀ {u : Daemon}, Leaves d u → (∀ w, a ≠ .worker w) →
      (∃ w, a = .worker w ∧ Works humanBytes d u) ∨ (∀ w, a ≠ .worker w) ∧ Leaves d u :=
    fun hu ha => .inr ⟨ha, hu⟩
  have hsend : ∀ e, Leaves d (d.send e) := fun e => ⟨rfl, rfl, fun _ => id, id, rfl, id⟩
  cases a with
  | worker w => exact .inl ⟨w, rfl, works_of_work h⟩
  | poll =>
      simp only [step] at h
      split_ifs at h
      cases h
      refine hother ?_ (fun w hw => by cases hw)
      have htrigger : Leaves (d.send .polled) ((d.send .polled).trigger .poll) := trigger_leaves
      exact ⟨htrigger.worker, htrigger.passes, htrigger.syncs, htrigger.shutdown, htrigger.answered,
        htrigger.room⟩
  | fsChange =>
      cases h
      exact hother trigger_leaves (fun w hw => by cases hw)
  | manual =>
      cases h
      exact hother trigger_leaves (fun w hw => by cases hw)
  | backupDue =>
      simp only [step] at h
      split_ifs at h
      cases h
      exact hother triggerBackup_leaves (fun w hw => by cases hw)
  | backupAsked =>
      simp only [step] at h
      split_ifs at h
      cases h
      exact hother triggerBackup_leaves (fun w hw => by cases hw)
  | stop =>
      simp only [step] at h
      split_ifs at h
      cases h
      exact hother ⟨rfl, rfl, fun _ => id, fun _ => rfl, rfl, id⟩ (fun w hw => by cases hw)
  | stopBackups =>
      simp only [step] at h
      split_ifs at h
      cases h
      exact hother ⟨rfl, rfl, fun _ => id, id, rfl, id⟩ (fun w hw => by cases hw)
  | dropSenders =>
      simp only [step] at h
      split_ifs at h
      cases h
      exact hother ⟨rfl, rfl, fun _ => id, id, rfl, id⟩ (fun w hw => by cases hw)
  | request job =>
      cases h
      exact hother ⟨rfl, rfl, fun _ => id, id, rfl, id⟩ (fun w hw => by cases hw)
  | enqueue job => exact hother (enqueue_leaves h) (fun w hw => by cases hw)
  | emit e =>
      simp only [step] at h
      split_ifs at h
      cases h
      exact hother (hsend e) (fun w hw => by cases hw)
  | backup b => exact hother (backUp_leaves h) (fun w hw => by cases hw)

def workerSteps (as : List WatchStep) : ℕ :=
  as.countP fun a => match a with
    | .worker _ => true
    | _ => false

/-- What has become of a queued trigger: a pass has begun for it, the worker has stopped, or it is
queued still, and the worker was busy with `k` requests meanwhile. -/
def Served (p : Trigger) (d t : Daemon) (steps : ℕ) : Prop :=
  (∃ before after, t.passes = d.passes ++ before ++ p :: after) ∨ t.worker = .stopped ∨
    t.syncs = some p ∧ ∃ k, t.passes = d.passes ++ List.replicate k .residency ∧
      t.worker.distance + steps ≤ d.worker.distance + 7 * k

theorem passes_step (h : d.step humanBytes a = some t) : d.passes <+: t.passes := by
  obtain ⟨w, -, hworks⟩ | ⟨-, hleaves⟩ := step_cases h
  · cases hworks with
    | takesRequest _ _ => exact List.prefix_append ..
    | takesTrigger _ _ => exact List.prefix_append ..
    | _ => exact List.prefix_rfl
  · rw [hleaves.passes]

theorem passes_runs (h : Runs (step humanBytes) Unguarded d as t) : d.passes <+: t.passes := by
  refine h.relates (R := fun s t => s.passes <+: t.passes) ?_ ?_ ?_
  · exact fun s => List.prefix_rfl
  · exact fun hst htu => hst.trans htu
  · exact fun s a t _ hstep => passes_step hstep

theorem stopped_step (h : d.step humanBytes a = some t) (hstopped : d.worker = .stopped) :
    t.worker = .stopped := by
  obtain ⟨w, -, hworks⟩ | ⟨-, hleaves⟩ := step_cases h
  · cases hworks <;> simp_all
  · rw [hleaves.worker, hstopped]

theorem stopped_runs (h : Runs (step humanBytes) Unguarded d as t) (hstopped : d.worker = .stopped) :
    t.worker = .stopped :=
  h.invariant hstopped fun _ _ _ hs _ hstep => stopped_step hstep hs

theorem served_step (h : d.step humanBytes a = some t) (hsyncs : d.syncs = some p) :
    Served p d t (workerSteps [a]) := by
  obtain ⟨w, rfl, hworks⟩ | ⟨ha, hleaves⟩ := step_cases h
  · have hone : workerSteps [.worker w] = 1 := rfl
    rw [hone]
    cases hworks with
    | stops _ _ => exact .inr (.inl rfl)
    | takesRequest hworker _ =>
        refine .inr (.inr ⟨hsyncs, 1, rfl, ?_⟩)
        simp [receive, hworker, WorkerPhase.distance]
    | waits _ hnone =>
        rw [hnone] at hsyncs
        cases hsyncs
    | takesTrigger _ hsome =>
        cases hsome.symm.trans hsyncs
        exact .inl ⟨[], [], by simp [receive]⟩
    | looks hworker _ =>
        exact .inr (.inr ⟨hsyncs, 0, by simp, by simp [hworker, WorkerPhase.distance]⟩)
    | passesOn hworker _ =>
        exact .inr (.inr ⟨hsyncs, 0, by simp, by simp [hworker, WorkerPhase.distance]⟩)
    | starts hworker =>
        refine .inr (.inr ⟨hsyncs, 0, by simp, ?_⟩)
        simp only [hworker, WorkerPhase.distance]
        omega
    | announces hworker =>
        refine .inr (.inr ⟨hsyncs, 0, by simp [send], ?_⟩)
        simp only [send, hworker, WorkerPhase.distance]
        omega
    | finishes hworker =>
        refine .inr (.inr ⟨hsyncs, 0, by simp, ?_⟩)
        simp only [hworker, WorkerPhase.distance]
        omega
    | reports hworker =>
        exact .inr (.inr ⟨hsyncs, 0, by simp [send], by simp [send, hworker, WorkerPhase.distance]⟩)
    | reportsFor hworker =>
        exact .inr (.inr ⟨hsyncs, 0, by simp [send], by simp [send, hworker, WorkerPhase.distance]⟩)
    | replies hworker =>
        exact .inr (.inr ⟨hsyncs, 0, by simp, by simp [hworker, WorkerPhase.distance]⟩)
  · have hnone : workerSteps [a] = 0 := by
      cases a with
      | worker w => exact absurd rfl (ha w)
      | _ => rfl
    refine .inr (.inr ⟨hleaves.syncs p hsyncs, 0, ?_, ?_⟩)
    · rw [hleaves.passes, List.replicate_zero, List.append_nil]
    · rw [hleaves.worker, hnone]

theorem served_runs (h : Runs (step humanBytes) Unguarded d as t) (hsyncs : d.syncs = some p) :
    Served p d t (workerSteps as) := by
  induction h with
  | refl d => exact .inr (.inr ⟨hsyncs, 0, by simp, by simp [workerSteps]⟩)
  | @next d u t a as _ hstep tail ih =>
      have hcount : workerSteps (a :: as) = workerSteps [a] + workerSteps as := by
        rw [← List.singleton_append]
        exact List.countP_append
      obtain ⟨before, after, hpasses⟩ | hstopped | ⟨hqueued, k, hpasses, hdistance⟩ :=
        served_step hstep hsyncs
      · obtain ⟨more, hmore⟩ := passes_runs tail
        refine .inl ⟨before, after ++ more, ?_⟩
        rw [← hmore, hpasses]
        simp
      · exact .inr (.inl (stopped_runs tail hstopped))
      · obtain ⟨before, after, hrest⟩ | hstopped | ⟨hstill, l, hrest, hcloser⟩ := ih hqueued
        · refine .inl ⟨List.replicate k .residency ++ before, after, ?_⟩
          rw [hrest, hpasses]
          simp
        · exact .inr (.inl hstopped)
        · refine .inr (.inr ⟨hstill, k + l, ?_, ?_⟩)
          · rw [hrest, hpasses, List.append_assoc, List.replicate_append_replicate]
          · rw [hcount]
            omega

def asks : WatchStep → Option Trigger
  | .poll => some .poll
  | .fsChange => some .fsChange
  | .manual => some .manual
  | _ => none

theorem trigger_queues (hopen : d.worker ≠ .stopped) : ∃ q, (d.trigger p).syncs = some q ∧
    (d.syncs = some q ∨ d.syncs = none ∧ q = p) := by
  cases hsyncs : d.syncs with
  | none =>
      have hok : d.trySync = .ok := by
        unfold trySync
        split <;> simp_all
      exact ⟨p, by simp [trigger, hok], .inr ⟨rfl, rfl⟩⟩
  | some q =>
      have hleaves : Leaves d (d.trigger p) := trigger_leaves
      exact ⟨q, hleaves.syncs q hsyncs, .inl rfl⟩

/-- A trigger is run for in a pass that begins after it came, or coalesces with one that is. -/
theorem trigger_served {s : Daemon} (hasks : asks a = some p) (hopen : d.worker ≠ .stopped)
    (hstep : d.step humanBytes a = some s) (h : Runs (step humanBytes) Unguarded s as t) :
    ∃ q, (d.syncs = some q ∨ d.syncs = none ∧ q = p) ∧ Served q s t (workerSteps as) := by
  suffices hqueued : ∃ q, s.syncs = some q ∧ (d.syncs = some q ∨ d.syncs = none ∧ q = p) by
    obtain ⟨q, hq, hwhich⟩ := hqueued
    exact ⟨q, hwhich, served_runs h hq⟩
  cases a with
  | poll =>
      cases hasks
      simp only [step] at hstep
      split_ifs at hstep
      cases hstep
      exact @trigger_queues (d.send .polled) .poll hopen
  | fsChange =>
      cases hasks
      cases hstep
      exact trigger_queues hopen
  | manual =>
      cases hasks
      cases hstep
      exact trigger_queues hopen
  | _ => cases hasks

def quietStatus : DaemonStatus := .new "bucket" "/root" 60 0

def duringPoll : Daemon :=
  { start quietStatus with
    worker := .running .poll none, status := quietStatus.started .poll
    events := [.polled, .syncStarted .poll], passes := [.poll] }

/-- A file changes while a pass is on, and the next pass begins for it. -/
theorem trigger_served_during_pass : ∃ s t : Daemon, ∃ as q,
    execute (step fun _ => "") (start quietStatus) [.poll, .worker .pollShutdown,
      .worker .pollResidency, .worker .pollSyncs, .worker .start, .worker .announce] =
        some duringPoll ∧
    duringPoll.step (fun _ => "") .fsChange = some s ∧
    execute (step fun _ => "") s as = some t ∧
    (duringPoll.syncs = some q ∨ duringPoll.syncs = none ∧ q = .fsChange) ∧
    Served q s t (workerSteps as) ∧ t.passes = [.poll, .fsChange] := by
  have hafter : execute (step fun _ => "") (duringPoll.trigger .fsChange)
      [.worker (.finish 7 (.ok .default)), .worker .report, .worker .pollShutdown,
        .worker .pollResidency, .worker .pollSyncs] =
      some { start quietStatus with
        worker := .received .fsChange none
        status := (quietStatus.started .poll).record ⟨7, .ok .default⟩
        events := [.polled, .syncStarted .poll, .syncFinished ⟨7, .ok .default⟩]
        passes := [.poll, .fsChange] } := rfl
  have hopen : duringPoll.worker ≠ .stopped := by
    intro hstopped
    cases hstopped
  obtain ⟨q, hq, hserved⟩ := trigger_served (a := .fsChange) rfl hopen rfl (execute_runs hafter)
  exact ⟨_, _, _, q, rfl, rfl, hafter, hq, hserved, rfl⟩

def Ending (d : Daemon) : Prop := d.shutdown = true ∨ d.worker = .stopped

theorem ending_step (h : d.step humanBytes a = some t) (hending : d.Ending) : t.Ending ∧
    t.worker.left + workerSteps [a] ≤ d.worker.left ∧
    t.passes.length + t.worker.polling.toNat ≤
      d.passes.length + d.worker.polling.toNat := by
  obtain ⟨w, rfl, hworks⟩ | ⟨ha, hleaves⟩ := step_cases h
  · have hone : workerSteps [.worker w] = 1 := rfl
    rw [hone]
    have hshutdown : d.worker ≠ .stopped → d.shutdown = true := fun hne => hending.resolve_right hne
    cases hworks with
    | stops hworker _ => simp [Ending, stopWorker, hworker, WorkerPhase.left, WorkerPhase.polling]
    | looks hworker hnone =>
        rw [hshutdown (by simp [hworker])] at hnone
        cases hnone
    | takesRequest hworker _ =>
        have := hshutdown (by simp [hworker])
        simp [Ending, receive, hworker, this, WorkerPhase.left, WorkerPhase.polling]
    | takesTrigger hworker _ =>
        have := hshutdown (by simp [hworker])
        simp [Ending, receive, hworker, this, WorkerPhase.left, WorkerPhase.polling]
    | passesOn hworker _ =>
        have := hshutdown (by simp [hworker])
        simp [Ending, hworker, this, WorkerPhase.left, WorkerPhase.polling]
    | waits hworker _ =>
        have := hshutdown (by simp [hworker])
        simp [Ending, hworker, this, WorkerPhase.left, WorkerPhase.polling]
    | starts hworker =>
        have := hshutdown (by simp [hworker])
        simp only [Ending, this, hworker, WorkerPhase.left, WorkerPhase.polling]
        exact ⟨.inl trivial, by omega, le_rfl⟩
    | announces hworker =>
        have := hshutdown (by simp [hworker])
        simp only [Ending, send, this, hworker, WorkerPhase.left, WorkerPhase.polling]
        exact ⟨.inl trivial, by omega, le_rfl⟩
    | finishes hworker =>
        have := hshutdown (by simp [hworker])
        simp only [Ending, this, hworker, WorkerPhase.left, WorkerPhase.polling]
        exact ⟨.inl trivial, by omega, le_rfl⟩
    | reports hworker =>
        have := hshutdown (by simp [hworker])
        simp [Ending, send, hworker, this, WorkerPhase.left, WorkerPhase.polling]
    | reportsFor hworker =>
        have := hshutdown (by simp [hworker])
        simp [Ending, send, hworker, this, WorkerPhase.left, WorkerPhase.polling]
    | replies hworker =>
        have := hshutdown (by simp [hworker])
        simp [Ending, hworker, this, WorkerPhase.left, WorkerPhase.polling]
  · have hnone : workerSteps [a] = 0 := by
      cases a with
      | worker w => exact absurd rfl (ha w)
      | _ => rfl
    rw [hleaves.worker, hleaves.passes, hnone]
    refine ⟨?_, le_rfl, le_rfl⟩
    rcases hending with hshutdown | hstopped
    · exact .inl (hleaves.shutdown hshutdown)
    · exact .inr (hleaves.worker.trans hstopped)

theorem ending_runs (h : Runs (step humanBytes) Unguarded d as t) (hending : d.Ending) : t.Ending ∧
    t.worker.left + workerSteps as ≤ d.worker.left ∧
    t.passes.length + t.worker.polling.toNat ≤
      d.passes.length + d.worker.polling.toNat := by
  induction h with
  | refl d => exact ⟨hending, by simp [workerSteps], le_rfl⟩
  | @next d u t a as _ hstep _ ih =>
      obtain ⟨hnext, hleft, hpasses⟩ := ending_step hstep hending
      obtain ⟨hend, hrest, hmore⟩ := ih hnext
      have hcount : workerSteps (a :: as) = workerSteps [a] + workerSteps as := by
        rw [← List.singleton_append]
        exact List.countP_append
      refine ⟨hend, ?_, hmore.trans hpasses⟩
      rw [hcount]
      omega

theorem work_enabled (hopen : d.worker ≠ .stopped) : ∃ w t, d.work humanBytes w = some t := by
  cases hworker : d.worker with
  | waiting => exact ⟨.pollShutdown, _, by simp [work, hworker]; rfl⟩
  | notShutDown =>
      cases hqueued : d.queued with
      | nil => exact ⟨.pollResidency, _, by simp [work, hworker, hqueued]; rfl⟩
      | cons job rest => exact ⟨.pollResidency, _, by simp [work, hworker, hqueued]; rfl⟩
  | noRequest =>
      cases hsyncs : d.syncs with
      | none => exact ⟨.pollSyncs, _, by simp [work, hworker, hsyncs]; rfl⟩
      | some p => exact ⟨.pollSyncs, _, by simp [work, hworker, hsyncs]; rfl⟩
  | received p job => exact ⟨.start, _, by simp [work, hworker]; rfl⟩
  | started p job => exact ⟨.announce, _, by simp [work, hworker]; rfl⟩
  | running p job => exact ⟨.finish 0 (.ok .default), _, by simp [work, hworker]; rfl⟩
  | recorded last job =>
      cases job with
      | none => exact ⟨.report, _, by simp [work, hworker]; rfl⟩
      | some job => exact ⟨.report, _, by simp [work, hworker]; rfl⟩
  | replying result job => exact ⟨.reply, _, by simp [work, hworker]; rfl⟩
  | stopped => exact absurd hworker hopen

/-- Once it is told to stop, the worker makes at most seven more steps, none of them in a second
pass, and it can go on until it has stopped. -/
theorem shutdown_drains (hshutdown : d.shutdown = true)
    (h : Runs (step humanBytes) Unguarded d as t) :
    (t.worker = .stopped ∨ ∃ w u, t.step humanBytes (.worker w) = some u) ∧ workerSteps as ≤ 7 ∧
      t.passes.length ≤ d.passes.length + 1 ∧
      (d.worker.polling = false → t.passes = d.passes) := by
  obtain ⟨-, hleft, hpasses⟩ := ending_runs h (.inl hshutdown)
  have hseven : d.worker.left ≤ 7 := by
    cases d.worker with
    | received p job => cases job <;> simp [WorkerPhase.left]
    | started p job => cases job <;> simp [WorkerPhase.left]
    | running p job => cases job <;> simp [WorkerPhase.left]
    | recorded last job => cases job <;> simp [WorkerPhase.left]
    | _ => simp [WorkerPhase.left]
  have hone := Bool.toNat_le (d.worker.polling)
  refine ⟨?_, by omega, by omega, fun hpolling => ?_⟩
  · by_cases hstopped : t.worker = .stopped
    · exact .inl hstopped
    · obtain ⟨w, u, hwork⟩ := @work_enabled humanBytes t hstopped
      exact .inr ⟨w, u, hwork⟩
  · rw [hpolling] at hpasses
    exact (passes_runs h).eq_of_length_le (by simpa using (Nat.le_add_right _ _).trans hpasses) |>.symm

/-- The worker is told to stop between two looks of one poll, and the trigger it finds is the last. -/
theorem shutdown_drains_midway : ∃ d t : Daemon, d.shutdown = true ∧ d.syncs = some .manual ∧
    (t.worker = .stopped ∨ ∃ w u, t.step (fun _ => "") (.worker w) = some u) ∧
    t.passes.length ≤ d.passes.length + 1 ∧ t.passes = [.manual] ∧ t.worker = .stopped := by
  have hruns : execute (step fun _ => "")
      { start quietStatus with
        looping := false, syncs := some .manual, worker := .noRequest, shutdown := true }
      [.worker .pollSyncs, .worker .start, .worker .announce,
        .worker (.finish 7 (.ok .default)), .worker .report, .worker .pollShutdown] =
      some { start quietStatus with
        looping := false, worker := .stopped
        status := (quietStatus.started .manual).record ⟨7, .ok .default⟩
        events := [.syncStarted .manual, .syncFinished ⟨7, .ok .default⟩]
        passes := [.manual] } := rfl
  obtain ⟨hend, -, hpasses, -⟩ := shutdown_drains rfl (execute_runs hruns)
  exact ⟨_, _, rfl, rfl, hend, hpasses, rfl, rfl⟩

def places (d : Daemon) : List Job :=
  d.senders ++ d.queued ++ d.worker.job.toList ++ d.answered.map Prod.fst ++
    d.turnedAway

def asked : WatchStep → Option Job
  | .request job => some job
  | _ => none

/-- A reply tells what the pass came to, after the subscribers were told. -/
structure Answers (humanBytes : ℕ → String) (d : Daemon) : Prop where
  answered : ∀ job text, (job, text) ∈ d.answered →
    ∃ last, .syncFinished last ∈ d.events ∧ text = replyText humanBytes last.result job.request
  replying : ∀ result job, d.worker = .replying result job →
    ∃ last, .syncFinished last ∈ d.events ∧ last.result = result
  room : d.queued.length ≤ residencyCapacity

theorem works_places (h : Works humanBytes d t) : t.places.Perm d.places := by
  rw [List.perm_iff_count]
  intro j
  cases h with
  | stops hworker _ =>
      simp [places, stopWorker, hworker, WorkerPhase.job]
      omega
  | takesRequest hworker hqueued =>
      simp [places, receive, hworker, hqueued, WorkerPhase.job, List.count_cons]
      omega
  | looks hworker _ => simp [places, hworker, WorkerPhase.job]
  | passesOn hworker _ => simp [places, hworker, WorkerPhase.job]
  | waits hworker _ => simp [places, hworker, WorkerPhase.job]
  | takesTrigger hworker _ => simp [places, receive, hworker, WorkerPhase.job]
  | starts hworker => simp [places, hworker, WorkerPhase.job]
  | announces hworker => simp [places, send, hworker, WorkerPhase.job]
  | finishes hworker => simp [places, hworker, WorkerPhase.job]
  | reports hworker => simp [places, send, hworker, WorkerPhase.job]
  | reportsFor hworker => simp [places, send, hworker, WorkerPhase.job]
  | replies hworker =>
      simp [places, hworker, WorkerPhase.job, List.count_cons]
      omega

theorem enqueue_places {job : Job} (h : d.enqueue job = some t) : t.places.Perm d.places := by
  unfold enqueue at h
  split at h
  · rename_i hmem
    have herase : ∀ j, d.senders.count j = (job :: d.senders.erase job).count j := fun j =>
      (List.perm_cons_erase hmem).count_eq j
    rw [List.perm_iff_count]
    intro j
    have hj := herase j
    simp only [List.count_cons, beq_iff_eq] at hj
    split at h
    · cases h
      simp [places, List.count_cons]
      omega
    · split at h
      · cases h
        simp [places, List.count_cons]
        omega
      · cases h
  · cases h

theorem step_places (h : d.step humanBytes a = some t) :
    t.places.Perm (d.places ++ (asked a).toList) := by
  have hnone : asked a = none → t.places.Perm d.places →
      t.places.Perm (d.places ++ (asked a).toList) := by
    intro ha hplaces
    rw [ha, Option.toList_none, List.append_nil]
    exact hplaces
  have htrigger : ∀ (s : Daemon) (p : Trigger), (s.trigger p).places = s.places := by
    intro s p
    unfold trigger
    split <;> rfl
  have hbackup : ∀ p, (d.triggerBackup p).places = d.places := by
    intro p
    unfold triggerBackup
    split <;> rfl
  cases a with
  | worker w => exact hnone rfl (works_places (works_of_work h))
  | enqueue job => exact hnone rfl (enqueue_places h)
  | request job =>
      cases h
      rw [List.perm_iff_count]
      intro j
      simp [places, asked, List.count_cons]
      omega
  | poll =>
      simp only [step] at h
      split_ifs at h
      cases h
      exact hnone rfl (.of_eq (htrigger _ _))
  | fsChange =>
      cases h
      exact hnone rfl (.of_eq (htrigger _ _))
  | manual =>
      cases h
      exact hnone rfl (.of_eq (htrigger _ _))
  | backupDue =>
      simp only [step] at h
      split_ifs at h
      cases h
      exact hnone rfl (.of_eq (hbackup _))
  | backupAsked =>
      simp only [step] at h
      split_ifs at h
      cases h
      exact hnone rfl (.of_eq (hbackup _))
  | backup b =>
      apply hnone rfl
      cases b <;> simp only [step, backUp] at h <;> split at h <;> cases h
      all_goals first
        | exact .refl _
        | (split_ifs <;> exact .refl _)
  | _ =>
      simp only [step] at h
      split_ifs at h
      cases h
      exact hnone rfl (.refl _)

theorem runs_places (h : Runs (step humanBytes) Unguarded d as t) :
    t.places.Perm (d.places ++ as.filterMap asked) := by
  induction h with
  | refl d => simp
  | @next d u t a as _ hstep _ ih =>
      have hfilter : (a :: as).filterMap asked = (asked a).toList ++ as.filterMap asked := by
        cases hasked : asked a <;> simp [hasked]
      rw [hfilter, ← List.append_assoc]
      exact ih.trans ((step_places hstep).append_right _)

theorem events_step (h : d.step humanBytes a = some t) : d.events <+: t.events := by
  have htrigger : ∀ (s : Daemon) (p : Trigger), (s.trigger p).events = s.events := by
    intro s p
    unfold trigger
    split <;> rfl
  have hbackup : ∀ p, (d.triggerBackup p).events = d.events := by
    intro p
    unfold triggerBackup
    split <;> rfl
  cases a with
  | worker w =>
      cases works_of_work h with
      | announces _ => exact List.prefix_append ..
      | reports _ => exact List.prefix_append ..
      | reportsFor _ => exact List.prefix_append ..
      | _ => exact List.prefix_rfl
  | enqueue job =>
      simp only [step, enqueue] at h
      split at h
      · split at h
        · cases h
          exact List.prefix_rfl
        · split at h <;> cases h
          exact List.prefix_rfl
      · cases h
  | request job =>
      cases h
      exact List.prefix_rfl
  | poll =>
      simp only [step] at h
      split_ifs at h
      cases h
      rw [htrigger]
      exact List.prefix_append ..
  | fsChange =>
      cases h
      rw [htrigger]
  | manual =>
      cases h
      rw [htrigger]
  | backupDue =>
      simp only [step] at h
      split_ifs at h
      cases h
      rw [hbackup]
  | backupAsked =>
      simp only [step] at h
      split_ifs at h
      cases h
      rw [hbackup]
  | backup b =>
      cases b <;> simp only [step, backUp] at h <;> split at h <;> cases h
      all_goals first
        | exact List.prefix_rfl
        | exact List.prefix_append ..
        | (split_ifs <;> exact List.prefix_rfl)
  | _ =>
      simp only [step] at h
      split_ifs at h
      cases h
      first
        | exact List.prefix_rfl
        | exact List.prefix_append ..

theorem answers_step (h : d.step humanBytes a = some t) (hd : d.Answers humanBytes) :
    t.Answers humanBytes := by
  have hevents := (events_step h).subset
  obtain ⟨w, -, hworks⟩ | ⟨-, hleaves⟩ := step_cases h
  · have hidle : t.answered = d.answered → (∀ result job, t.worker ≠ .replying result job) →
        t.queued.length ≤ residencyCapacity → t.Answers humanBytes := by
      intro hanswered hworker hroom
      refine ⟨fun job text hmem => ?_, fun result job hreplying => ?_, hroom⟩
      · rw [hanswered] at hmem
        obtain ⟨last, hlast, htext⟩ := hd.answered job text hmem
        exact ⟨last, hevents hlast, htext⟩
      · exact absurd hreplying (hworker result job)
    cases hworks with
    | stops _ _ => exact hidle rfl (fun _ _ hr => by cases hr) (Nat.zero_le _)
    | takesRequest _ hqueued =>
        refine hidle rfl (fun _ _ hr => by cases hr) ?_
        have hroom := hd.room
        rw [hqueued, List.length_cons] at hroom
        exact Nat.le_of_succ_le hroom
    | reportsFor hworker =>
        rename_i last job
        refine ⟨fun job text hmem => ?_, fun result job hreplying => ?_, hd.room⟩
        · obtain ⟨last, hlast, htext⟩ := hd.answered job text hmem
          exact ⟨last, hevents hlast, htext⟩
        · cases hreplying
          exact ⟨last, List.mem_append_right _ (List.mem_singleton_self _), rfl⟩
    | replies hworker =>
        rename_i result job
        refine ⟨fun other text hmem => ?_, (fun _ _ hreplying => by cases hreplying), hd.room⟩
        obtain hbefore | hnow := List.mem_append.mp hmem
        · exact hd.answered other text hbefore
        · cases List.mem_singleton.mp hnow
          obtain ⟨last, hlast, rfl⟩ := hd.replying result job hworker
          exact ⟨last, hlast, rfl⟩
    | _ => exact hidle rfl (fun _ _ hr => by cases hr) hd.room
  · refine ⟨fun job text hmem => ?_, fun result job hreplying => ?_, hleaves.room hd.room⟩
    · rw [hleaves.answered] at hmem
      obtain ⟨last, hlast, htext⟩ := hd.answered job text hmem
      exact ⟨last, hevents hlast, htext⟩
    · rw [hleaves.worker] at hreplying
      obtain ⟨last, hlast, hresult⟩ := hd.replying result job hreplying
      exact ⟨last, hevents hlast, hresult⟩

/-- Every request is in one place, and is answered with what its pass came to. -/
theorem requests_answered_once {status : DaemonStatus}
    (h : Runs (step humanBytes) Unguarded (start status) as t) :
    t.places.Perm (as.filterMap asked) ∧ t.queued.length ≤ residencyCapacity ∧
      ∀ job text, (job, text) ∈ t.answered → ∃ last, .syncFinished last ∈ t.events ∧
        text = replyText humanBytes last.result job.request := by
  have hanswers : t.Answers humanBytes := by
    refine h.invariant (I := fun d => d.Answers humanBytes) ?_ ?_
    · exact ⟨(fun job text hmem => by cases hmem), (fun _ _ hr => by cases hr), Nat.zero_le _⟩
    · exact fun d a t hd _ hstep => answers_step hstep hd
  exact ⟨runs_places h, hanswers.room, hanswers.answered⟩

def hydrateDocs : Job := ⟨1, ⟨true, false, ["docs"]⟩⟩

def evictVideos : Job := ⟨2, ⟨false, true, ["videos"]⟩⟩

/-- Two requests, one of them answered and one turned away. -/
theorem requests_answered_once_two : ∃ t : Daemon,
    t.places.Perm [hydrateDocs, evictVideos] ∧ t.answered = [(hydrateDocs, "hydrated 0 file(s)\n")] ∧
      t.turnedAway = [evictVideos] ∧ ∃ last, .syncFinished last ∈ t.events ∧
        "hydrated 0 file(s)\n" = replyText (fun _ => "") last.result hydrateDocs.request := by
  have hrun : execute (step fun _ => "") (start quietStatus) [.request hydrateDocs,
      .enqueue hydrateDocs, .worker .pollShutdown, .worker .pollResidency, .worker .start,
      .worker .announce, .request evictVideos, .enqueue evictVideos,
      .worker (.finish 7 (.ok .default)), .worker .report, .worker .reply, .stop,
      .worker .pollShutdown] =
      some { start quietStatus with
        looping := false, worker := .stopped
        status := (quietStatus.started .residency).record ⟨7, .ok .default⟩
        events := [.syncStarted .residency, .syncFinished ⟨7, .ok .default⟩]
        passes := [.residency]
        answered := [(hydrateDocs, "hydrated 0 file(s)\n")]
        turnedAway := [evictVideos] } := rfl
  obtain ⟨hplaces, -, hanswered⟩ := requests_answered_once (execute_runs hrun)
  exact ⟨_, hplaces, rfl, rfl, hanswered _ _ (List.mem_singleton_self _)⟩

end Daemon

end FileMirror.Control
