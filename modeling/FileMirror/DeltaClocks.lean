import FileMirror.CompactionShared
import FileMirror.DeviceRuns

set_option autoImplicit false

namespace FileMirror

open Transitions

def Effect.Stamped : Effect → Prop
  | .logDelta lamport _ deltas => deltas ≠ [] ∧ ∀ d ∈ deltas, d.lamport = lamport
  | _ => True

structure Applying.Stamped (lamport : ℕ) (a : Applying) : Prop where
  effects : ∀ e ∈ a.effects, e.Stamped
  deltas : ∀ d ∈ a.deltas, d.lamport = lamport

namespace Applying.Stamped

variable {plan : Plan} {clock : PassClock} {a a' : Applying} {lamport : ℕ}

theorem flush (h : a.Stamped lamport) : (flush lamport a).Stamped lamport := by
  refine ⟨fun e he => ?_, List.forall_mem_nil _⟩
  simp only [FileMirror.flush, List.mem_append, List.mem_flatMap] at he
  rcases he with he | he | ⟨op, -, he⟩
  · exact h.effects e he
  · split_ifs at he with hdeltas
    · cases he
    · rw [List.mem_singleton.mp he]
      exact ⟨hdeltas, h.deltas⟩
  · have hwrites := (Applied.effects_writes op e he).2
    cases e with
    | logDelta => cases hwrites
    | _ => trivial

theorem flushIfFull (h : a.Stamped lamport) : (flushIfFull lamport a).Stamped lamport := by
  unfold FileMirror.flushIfFull
  split_ifs
  · exact h.flush
  · exact h

theorem joinOne {j : Action × Outcome} (h : a.Stamped clock.lamport) :
    (joinOne plan clock a j).Stamped clock.lamport := by
  obtain ⟨action, outcome⟩ := j
  apply flushIfFull
  have hsend : ∀ r, ∀ d ∈ a.deltas ++ [newDelta a.manifest clock action.path r],
      d.lamport = clock.lamport := by
    intro r d hd
    rcases List.mem_append.mp hd with hd | hd
    · exact h.deltas d hd
    · rw [List.mem_singleton.mp hd]
      rfl
  cases outcome with
  | failed | deferred | downloaded => exact ⟨h.effects, h.deltas⟩
  | uploaded r => exact ⟨h.effects, hsend r⟩
  | relocated r => exact ⟨h.effects, hsend r⟩

theorem joinAll {joined : List (Action × Outcome)} (h : a.Stamped clock.lamport) :
    (joined.foldl (FileMirror.joinOne plan clock) a).Stamped clock.lamport := by
  induction joined generalizing a with
  | nil => exact h
  | cons j joined ih => exact ih h.joinOne

theorem perform {es : List Effect} {ops : List BaselineOp} (h : a.Stamped lamport)
    (hes : ∀ e ∈ es, e.Stamped) :
    Applying.Stamped lamport { a with effects := a.effects ++ es, batchOps := ops } := by
  refine ⟨fun e he => ?_, h.deltas⟩
  exact (List.mem_append.mp he).elim (h.effects e) (hes e)

theorem actOne {action : Action} (h : a.Stamped clock.lamport)
    (hact : actOne clock a action = some a') : a'.Stamped clock.lamport := by
  obtain ⟨path, kind⟩ := action
  unfold FileMirror.actOne at hact
  obtain ⟨acted, hacted, rfl⟩ := Option.map_eq_some_iff.mp hact
  apply flushIfFull
  cases kind with
  | createPlaceholder | updatePlaceholder =>
      simp only at hacted
      split_ifs at hacted
      · cases hacted
        exact h
      · obtain ⟨entry, -, rfl⟩ := Option.map_eq_some_iff.mp hacted
        exact ⟨h.effects, h.deltas⟩
  | deleteLocal =>
      cases hacted
      exact h.perform (List.forall_mem_singleton.mpr trivial)
  | deleteRemote =>
      simp only at hacted
      split_ifs at hacted
      · cases hacted
        exact h
      · cases hacted
        refine ⟨h.effects, fun d hd => ?_⟩
        rcases List.mem_append.mp hd with hd | hd
        · exact h.deltas d hd
        · obtain ⟨entry, -, rfl⟩ := Option.map_eq_some_iff.mp (Option.mem_toList.mp hd)
          rfl
  | conflict =>
      obtain ⟨target, -, rfl⟩ := Option.map_eq_some_iff.mp hacted
      exact h.perform (List.forall_mem_cons.mpr ⟨trivial, List.forall_mem_singleton.mpr trivial⟩)
  | download | hydrate | relocate | upload =>
      cases hacted
      exact h

theorem actAll {actions : List Action} (h : a.Stamped clock.lamport) :
    (actAll clock actions a).1.Stamped clock.lamport := by
  induction actions generalizing a with
  | nil => exact h
  | cons action actions ih =>
      unfold FileMirror.actAll
      cases hact : FileMirror.actOne clock a action with
      | none => exact h
      | some b => exact ih (h.actOne hact)

theorem apply {m : Manifest} {joined : List (Action × Outcome)} :
    (apply plan joined m clock).1.Stamped clock.lamport := by
  have hstart : Applying.Stamped clock.lamport ⟨m, [], [], 0, [], [], []⟩ :=
    ⟨List.forall_mem_nil _, List.forall_mem_nil _⟩
  have hjoined : (joined.foldl (FileMirror.joinOne plan clock)
      ⟨m, [], [], 0, [], [], []⟩).Stamped clock.lamport := hstart.joinAll
  have hacted : (FileMirror.actAll clock plan.actions (joined.foldl (FileMirror.joinOne plan clock)
      ⟨m, [], [], 0, [], [], []⟩)).1.Stamped clock.lamport := hjoined.actAll
  unfold FileMirror.apply
  dsimp only
  split_ifs
  · cases hall : FileMirror.actAll clock plan.actions
        (joined.foldl (FileMirror.joinOne plan clock) ⟨m, [], [], 0, [], [], []⟩) with
    | mk b ended =>
        rw [hall] at hacted
        cases ended with
        | false => exact hacted
        | true =>
            have hflushed : (FileMirror.flush clock.lamport b).Stamped clock.lamport := hacted.flush
            refine ⟨fun e he => ?_, hflushed.deltas⟩
            rcases List.mem_append.mp he with he | he
            · exact hflushed.effects e he
            · rw [List.mem_singleton.mp he]
              trivial
  · exact hstart

end Applying.Stamped

section Stamped

variable {plan : Plan} {manifest : Manifest} {remoteLamport : ℕ} {device : DeviceState}
  {events : PassEvents} {clock : PassClock} {e : Effect}

theorem Resumed.stamped {r : Resuming} (h : Resumed manifest events clock r)
    (he : e ∈ r.effects) : e.Stamped := by
  obtain ⟨path, rfl⟩ := h.effects e he
  trivial

theorem Resumed.stamped_logs {r : Resuming} (h : Resumed manifest events clock r)
    (hcompleted : r.completed ≠ []) (he : e ∈ r.logs clock.lamport) : e.Stamped := by
  simp only [Resuming.logs, List.mem_cons, List.mem_map] at he
  rcases he with rfl | rfl | ⟨c, -, rfl⟩
  · refine ⟨by simpa using hcompleted, fun d hd => ?_⟩
    obtain ⟨c, hc, rfl⟩ := List.mem_map.mp hd
    obtain ⟨upload, -, hdelta⟩ := h.completed c hc
    rw [hdelta]
    rfl
  · trivial
  · trivial

theorem passEffects_stamped (he : e ∈ passEffects plan manifest remoteLamport device events) :
    e.Stamped := by
  have hstart : Resumed manifest events
      (events.clock device (nextLamport remoteLamport device.lamport)) ⟨[], []⟩ :=
    ⟨List.forall_mem_nil _, List.forall_mem_nil _⟩
  have hresumed := resumeAll_resumed hstart (fun _ => id : events.uploads ⊆ events.uploads)
  cases hall : resumeAll manifest
      (events.clock device (nextLamport remoteLamport device.lamport)) events.uploads ⟨[], []⟩ with
  | mk r finished =>
      rw [hall] at hresumed
      cases finished with
      | false =>
          rw [passEffects_of_error hall] at he
          exact hresumed.stamped he
      | true =>
          by_cases hcompleted : r.completed = []
          · rw [passEffects_of_none hall hcompleted] at he
            rcases List.mem_append.mp he with he | he
            · exact hresumed.stamped he
            · exact Applying.Stamped.apply.effects e he
          · rw [passEffects_of_resumed rfl hall hcompleted] at he
            rcases List.mem_append.mp he with he | he
            · exact (List.mem_append.mp he).elim hresumed.stamped
                (hresumed.stamped_logs hcompleted)
            · exact Applying.Stamped.apply.effects e he

end Stamped

structure PassUnderWay where
  merged : List DeltaEntry
  unix : String → ℕ
  turn : ℕ
  effects : List Effect

/-- A call of `log_delta`: by which device, in which of its passes, and what that pass had merged. -/
structure LogCall (ι : Type) where
  device : ι
  turn : ℕ
  merged : List DeltaEntry
  lamport : ℕ
  seq : ℕ
  key : String
  deltas : List DeltaEntry

/-- The devices that mirror one folder. The entries that each merge last went over, the number of
passes and the calls of `log_delta` are recorded for the statements; no step reads them. -/
structure Mirrors (ι : Type) where
  site : Site ι
  state : ι → DeviceState
  tree : ι → LocalTree
  pass : ι → Option PassUnderWay
  merging : ι → List DeltaEntry
  turns : ι → ℕ
  calls : List (LogCall ι)

/-- `request` is a request to the store for a read or a compaction, `own` any change of a device's
files, rows and pending uploads, `plan` what a pass does between its read and its first effect,
`effect` one of its effects, and `stop` an error or a crash. -/
inductive MirrorLabel (ι : Type) where
  | request (i : ι) (e : Event)
  | own (i : ι) (files : Baseline) (uploads : StringMap PendingUpload) (tree : LocalTree)
  | plan (i : ι) (options : PassOptions) (utc : ℕ → String) (events : PassEvents)
  | effect (i : ι) (stamp : Option ℕ)
  | stop (i : ι)

def Device.merges (d : Device) : Event → Option (List DeltaEntry)
  | .next _ _ =>
      match d.phase with
      | .fetching s _ [] deltas => some (s.manifest.values ++ deltas)
      | _ => none
  | _ => none

namespace Mirrors

variable {ι : Type} [DecidableEq ι]

def requestStep (s : Mirrors ι) (i : ι) (e : Event) : Option (Mirrors ι) :=
  match s.pass i, s.site.step (.device i e) with
  | none, some site =>
      some { s with
        site
        merging := Function.update s.merging i
          (((s.site.devices i).merges e).getD (s.merging i)) }
  | _, _ => none

/-- The device has read the log and is done with the store until its first effect. -/
def rest (s : Mirrors ι) (i : ι) : Site ι :=
  { s.site with devices := Function.update s.site.devices i (s.site.devices i).fail }

def planStep (s : Mirrors ι) (i : ι) (options : PassOptions) (utc : ℕ → String)
    (events : PassEvents) : Option (Mirrors ι) :=
  match s.pass i, (s.site.devices i).purpose, (s.site.devices i).phase with
  | none, .read, .folded f =>
      let preserving := preserveConflictLosers (stamped utc f.merged) (s.tree i) (s.state i)
      let preserved := preserving.1
      let read := { s with site := s.rest i, state := Function.update s.state i preserved.state }
      if preserving.2 then
        let planned := planFrom options f.merged preserved
        some { read with
          tree := Function.update s.tree i (removeStale options preserved.state preserved.tree)
          turns := Function.update s.turns i (s.turns i + 1)
          pass := Function.update s.pass i (some
            { merged := s.merging i, unix := events.unix, turn := s.turns i + 1
              effects := passEffects planned.plan planned.manifest planned.remoteLamport
                preserved.state events }) }
      else some { read with tree := Function.update s.tree i preserved.tree }
  | _, _, _ => none

/-- The call that an effect of device `i` makes. -/
def callOf (s : Mirrors ι) (i : ι) (p : PassUnderWay) : Effect → Option (LogCall ι)
  | .logDelta lamport seq deltas =>
      some ⟨i, p.turn, p.merged, lamport, seq, deltaKey lamport (s.state i).deviceId seq, deltas⟩
  | _ => none

def logged (s : Mirrors ι) (call : Option (LogCall ι)) (stamp : Option ℕ) : Site ι :=
  match call with
  | none => s.site
  | some call =>
      { s.site with
        bucket := s.site.bucket.logDelta call.key call.deltas stamp
        puts := (call.key, call.deltas) :: s.site.puts }

def effectStep (s : Mirrors ι) (i : ι) (stamp : Option ℕ) : Option (Mirrors ι) :=
  match s.pass i with
  | none => none
  | some p =>
      match p.effects with
      | [] => none
      | e :: rest =>
          let w := World.run p.unix ⟨s.state i, s.tree i, ∅⟩ e
          let call := s.callOf i p e
          some { s with
            site := s.logged call stamp
            state := Function.update s.state i w.device
            tree := Function.update s.tree i w.tree
            pass := Function.update s.pass i (some { p with effects := rest })
            calls := call.toList ++ s.calls }

def step (s : Mirrors ι) : MirrorLabel ι → Option (Mirrors ι)
  | .request i e => s.requestStep i e
  | .own i files uploads tree => some
      { s with
        state := Function.update s.state i { s.state i with files, uploads }
        tree := Function.update s.tree i tree }
  | .plan i options utc events => s.planStep i options utc events
  | .effect i stamp => s.effectStep i stamp
  | .stop i => some { s with site := s.rest i, pass := Function.update s.pass i none }

end Mirrors

def Purpose.compacts : Purpose → Bool
  | .read => false
  | .compact _ _ => true

def Device.Compacting (d : Device) : Prop := d.purpose.compacts = true ∧ d.phase ≠ .idle

/-- A compaction starts while no device reads or compacts, no device starts beside a compaction,
and the lamports that a pass may use are below 2^63. -/
def Mirrors.Sequential {ι : Type} (s : Mirrors ι) : MirrorLabel ι → Prop
  | .request _ (.start purpose) => ∀ j, (purpose.compacts = true → (s.site.devices j).phase = .idle) ∧
      ¬ (s.site.devices j).Compacting
  | .plan i _ _ _ => ∀ f, (s.site.devices i).phase = .folded f →
      nextLamport f.merged.remoteLamport (s.state i).lamport ≤ i64Max
  | _ => True

/-- Nobody has put a delta yet, and the snapshot, if there is one, opens. -/
structure Mirrors.Initial {ι : Type} (s : Mirrors ι) : Prop where
  site : s.site.Initial
  puts : s.site.puts = []
  pass : ∀ i, s.pass i = none
  calls : s.calls = []

/-- Up to its put, the snapshot that the device goes by is the newest. -/
def Device.Fresh (d : Device) (b : Bucket) : Prop :=
  match d.phase with
  | .listed newest => newest.map Prod.fst = b.newest
  | .snapshotHeld s | .fetching s _ _ _ => s.generation = b.newest
  | .folded f | .putting f _ => f.snapshot.generation = b.newest
  | _ => True

def Phase.pastMerge : Phase → Bool
  | .idle | .listed _ | .snapshotHeld _ | .fetching _ _ _ _ | .folded _ => false
  | _ => true

structure Device.Orderly (d : Device) (b : Bucket) : Prop where
  fresh : d.Fresh b
  purpose : d.phase.pastMerge = true → d.purpose.compacts = true

section Requests

variable {b b' : Bucket} {d d' : Device} {e : Event}

theorem Device.Orderly.idle (h : d.phase = .idle) : d.Orderly b := by
  constructor
  · unfold Device.Fresh
    rw [h]
    trivial
  · rw [h]
    exact fun hpast => by cases hpast

theorem Device.Orderly.moves (h : d.Orderly b) (hmoves : Moves b d e d' b') : d'.Orderly b' := by
  obtain ⟨hfresh, hpurpose⟩ := h
  cases hmoves with
  | start => exact ⟨listNewest_fst b, fun hpast => by cases hpast⟩
  | stop => exact .idle rfl
  | mismatch => exact .idle rfl
  | empty => exact ⟨hfresh, fun hpast => by cases hpast⟩
  | opened hopen => exact ⟨hfresh, fun hpast => by cases hpast⟩
  | listLog => exact ⟨hfresh, fun hpast => by cases hpast⟩
  | fetch hkey hread => exact ⟨hfresh, fun hpast => by cases hpast⟩
  | merge => exact ⟨hfresh, fun hpast => by cases hpast⟩
  | choose hbound => exact ⟨hfresh, fun _ => rfl⟩
  | keepData => exact ⟨trivial, hpurpose⟩
  | _ => exact ⟨trivial, fun _ => hpurpose rfl⟩

theorem Device.Orderly.compacting (h : d.Orderly b) (hmoves : Moves b d e d' b') :
    b'.newest = b.newest ∨ d.Compacting := by
  cases hmoves with
  | put => exact .inr ⟨h.purpose rfl, by simp⟩
  | dropSnapshot hgeneration => exact .inr ⟨h.purpose rfl, by simp⟩
  | _ => exact .inl rfl

theorem Moves.begins (h : Moves b d e d' b') (hbusy : d'.phase ≠ .idle) :
    (∃ purpose, e = .start purpose ∧ d'.purpose = purpose) ∨
      d'.purpose = d.purpose ∧ d.phase ≠ .idle := by
  cases h with
  | start => exact .inl ⟨_, rfl, rfl⟩
  | stop => exact absurd rfl hbusy
  | mismatch => exact absurd rfl hbusy
  | _ => exact .inr ⟨rfl, by simp⟩

theorem Moves.folded {f : Folded} (h : Moves b d e d' b') (hphase : d'.phase = .folded f) :
    ∃ deltas, d.merges e = some (f.snapshot.manifest.values ++ deltas) ∧
      f.merged = mergeDeltas f.snapshot.manifest deltas := by
  cases h with
  | merge =>
      cases hphase
      exact ⟨_, rfl, rfl⟩
  | _ => cases hphase

theorem Device.step_start {purpose : Purpose} {moved : Device × Bucket}
    (h : d.step b (.start purpose) = some moved) : d.phase = .idle := by
  simp only [Device.step] at h
  cases hphase : d.phase with
  | idle => rfl
  | _ =>
      rw [hphase] at h
      cases h

theorem Device.deletesDelta_pruning {key : String} (h : d.deletesDelta e = some key) :
    d.purpose.compacts = true ∧ ∃ f todo, d.phase = .pruning f todo := by
  obtain ⟨g, purpose, phase⟩ := d
  unfold Device.deletesDelta at h
  cases e with
  | next now stamp =>
      cases purpose with
      | read => cases h
      | compact grace retention =>
          cases phase with
          | pruning f todo => exact ⟨rfl, f, todo, rfl⟩
          | _ => cases h
  | _ => cases h

end Requests

structure Site.Orderly {ι : Type} (s : Site ι) : Prop where
  sound : s.Invariant
  devices : ∀ i, (s.devices i).Orderly s.bucket
  alone : ∀ i j, (s.devices i).Compacting → j ≠ i → (s.devices j).phase = .idle

namespace Site.Orderly

variable {ι : Type} {s t : Site ι} {i : ι} {e : Event}

theorem logDelta (h : s.Orderly) {key : String} {deltas : List DeltaEntry} {stamp : Option ℕ}
    (hfresh : key ∉ s.puts.map Prod.fst) :
    Site.Orderly { s with bucket := s.bucket.logDelta key deltas stamp
                          puts := (key, deltas) :: s.puts } where
  sound := h.sound.logDelta hfresh
  devices := fun j => ⟨(h.devices j).fresh, (h.devices j).purpose⟩
  alone := h.alone

variable [DecidableEq ι]

theorem undisturbed (h : s.Orderly) : s.Undisturbed (.device i e) := by
  constructor
  · intro f generation hphase
    have hfresh := (h.devices i).fresh
    unfold Device.Fresh at hfresh
    rw [hphase] at hfresh
    exact hfresh.symm
  · intro key object deltas hkey _ _ j m hmid
    obtain ⟨hpurpose, f, todo, hphase⟩ := Device.deletesDelta_pruning hkey
    have hidle : (s.devices j).phase = .idle ∨ (s.devices j).phase = .pruning f todo := by
      by_cases hj : j = i
      · exact .inr (hj ▸ hphase)
      · exact .inl (h.alone i j ⟨hpurpose, by simp [hphase]⟩ hj)
    unfold Device.MidRead at hmid
    rcases hidle with hidle | hidle
    · rw [hidle] at hmid
      exact absurd hmid id
    · rw [hidle] at hmid
      exact absurd hmid id

theorem request (h : s.Orderly)
    (hguard : ∀ purpose, e = .start purpose → ∀ j,
      (purpose.compacts = true → (s.devices j).phase = .idle) ∧ ¬ (s.devices j).Compacting)
    (hstep : s.step (.device i e) = some t) : t.Orderly := by
  have hsound := h.sound.step h.undisturbed hstep
  simp only [Site.step] at hstep
  cases hdevice : (s.devices i).step s.bucket e with
  | none => simp [hdevice] at hstep
  | some moved =>
      obtain ⟨d, b⟩ := moved
      have hmoves := Device.step_moves hdevice
      rw [hdevice] at hstep
      cases hstep
      have hself : (Function.update s.devices i d) i = d := Function.update_self ..
      have hother : ∀ j, j ≠ i → (Function.update s.devices i d) j = s.devices j :=
        fun j hj => Function.update_of_ne hj ..
      have halone : ∀ j, j ≠ i → d.Compacting → (s.devices j).phase = .idle := by
        intro j hj hcompacts
        rcases hmoves.begins hcompacts.2 with ⟨purpose, rfl, hpurpose⟩ | ⟨hpurpose, hbusy⟩
        · exact (hguard purpose rfl j).1 (hpurpose ▸ hcompacts.1)
        · exact h.alone i j ⟨hpurpose ▸ hcompacts.1, hbusy⟩ hj
      refine ⟨hsound, fun j => ?_, fun j k hcompacts hk => ?_⟩
      · by_cases hj : j = i
        · subst hj
          change (Function.update s.devices j d j).Orderly b
          rw [hself]
          exact (h.devices j).moves hmoves
        · change (Function.update s.devices i d j).Orderly b
          rw [hother j hj]
          rcases (h.devices i).compacting hmoves with hnewest | hcompacts
          · refine ⟨?_, (h.devices j).purpose⟩
            have hfresh := (h.devices j).fresh
            unfold Device.Fresh at hfresh ⊢
            rw [hnewest]
            exact hfresh
          · exact .idle (h.alone i j hcompacts hj)
      · change (Function.update s.devices i d j).Compacting at hcompacts
        change (Function.update s.devices i d k).phase = .idle
        by_cases hj : j = i
        · subst hj
          rw [hself] at hcompacts
          rw [hother k hk]
          exact halone k hk hcompacts
        · rw [hother j hj] at hcompacts
          by_cases hki : k = i
          · subst hki
            rw [hself]
            by_contra hbusy
            rcases hmoves.begins hbusy with ⟨purpose, rfl, -⟩ | ⟨-, hbefore⟩
            · exact (hguard purpose rfl j).2 hcompacts
            · exact hbefore (h.alone j k hcompacts hk)
          · rw [hother k hki]
            exact h.alone j k hcompacts hk

end Site.Orderly

variable {ι : Type}

/-- How a call was made: its pass had merged nothing of so late a lamport. -/
structure LogCall.Sound (c : LogCall ι) (deviceId : ι → String) : Prop where
  key : c.key = deltaKey c.lamport (deviceId c.device) c.seq
  some : c.deltas ≠ []
  stamped : ∀ d ∈ c.deltas, d.lamport = c.lamport
  merged : ∀ e ∈ c.merged, e.lamport < c.lamport

/-- The keys a pass under way has yet to use are new, and later than what it has merged and than
what the device has used in passes before. -/
structure PassUnderWay.Ahead (p : PassUnderWay) (i : ι) (calls : List (LogCall ι)) : Prop where
  stamped : ∀ e ∈ p.effects, e.Stamped
  keys : (p.effects.filterMap Effect.logKey).Nodup
  unused : ∀ c ∈ calls, c.device = i → (c.lamport, c.seq) ∉ p.effects.filterMap Effect.logKey
  merged : ∀ key ∈ p.effects.filterMap Effect.logKey, ∀ e ∈ p.merged, e.lamport < key.1
  earlier : ∀ key ∈ p.effects.filterMap Effect.logKey, ∀ c ∈ calls, c.device = i →
    c.turn < p.turn → c.lamport < key.1

structure Logs (deviceId : ι → String) (turns : ι → ℕ) (calls : List (LogCall ι)) : Prop where
  sound : ∀ c ∈ calls, c.Sound deviceId
  distinct : (calls.map fun c => (c.device, c.lamport, c.seq)).Nodup
  turn : ∀ c ∈ calls, c.turn ≤ turns c.device
  ordered : ∀ c ∈ calls, ∀ c' ∈ calls, c'.device = c.device → c'.turn < c.turn →
    c'.lamport < c.lamport

structure Mirrors.Invariant (deviceId : ι → String) (s : Mirrors ι) : Prop where
  ids : ∀ i, (s.state i).deviceId = deviceId i
  site : s.site.Orderly
  puts : s.site.puts = s.calls.map fun c => (c.key, c.deltas)
  logs : Logs deviceId s.turns s.calls
  merging : ∀ i f, (s.site.devices i).phase = .folded f → ∃ deltas,
    s.merging i = f.snapshot.manifest.values ++ deltas ∧
      f.merged = mergeDeltas f.snapshot.manifest deltas
  known : ∀ i, (s.site.devices i).phase ≠ .idle → ∀ c ∈ s.calls, c.device = i →
    c.deltas ⊆ s.site.since i
  busy : ∀ i p, s.pass i = some p → (s.site.devices i).phase = .idle ∧ p.turn = s.turns i ∧
    p.Ahead i s.calls

section Calls

variable {deviceId : ι → String} {turns : ι → ℕ} {calls : List (LogCall ι)} {p : PassUnderWay}
  {e : Effect} {rest : List Effect} {i : ι} {s : Mirrors ι}

theorem Logs.keys_nodup (h : Logs deviceId turns calls) (hids : Function.Injective deviceId) :
    (calls.map LogCall.key).Nodup := by
  have hkeys : calls.map LogCall.key = (calls.map fun c => (c.device, c.lamport, c.seq)).map
      fun k => deltaKey k.2.1 (deviceId k.1) k.2.2 := by
    rw [List.map_map]
    exact List.map_congr_left fun c hc => (h.sound c hc).key
  rw [hkeys]
  refine h.distinct.map ?_
  rintro ⟨i, lamport, seq⟩ ⟨j, lamport', seq'⟩ hsame
  obtain ⟨hlamport, hdevice, hseq⟩ := deltaKey_injective hsame
  exact Prod.ext (hids hdevice) (Prod.ext hlamport hseq)

theorem PassUnderWay.Ahead.silent (h : p.Ahead i calls) (heffects : p.effects = e :: rest)
    (hkey : e.logKey = none) : PassUnderWay.Ahead { p with effects := rest } i calls := by
  have hkeys : p.effects.filterMap Effect.logKey = rest.filterMap Effect.logKey := by
    rw [heffects, List.filterMap_cons_none hkey]
  refine ⟨fun f hf => h.stamped f (heffects ▸ List.mem_cons_of_mem _ hf), ?_, ?_, ?_, ?_⟩
  · exact hkeys ▸ h.keys
  · exact hkeys ▸ h.unused
  · exact hkeys ▸ h.merged
  · exact hkeys ▸ h.earlier

theorem Logs.call {lamport seq : ℕ} {deltas : List DeltaEntry} (h : Logs deviceId turns calls)
    (hahead : p.Ahead i calls) (hturn : p.turn = turns i)
    (heffects : p.effects = .logDelta lamport seq deltas :: rest) :
    Logs deviceId turns (⟨i, p.turn, p.merged, lamport, seq, deltaKey lamport (deviceId i) seq,
      deltas⟩ :: calls) := by
  have hkey : (lamport, seq) ∈ p.effects.filterMap Effect.logKey := by
    rw [heffects]
    exact List.mem_cons_self ..
  obtain ⟨hsome, hstamped⟩ := hahead.stamped (.logDelta lamport seq deltas)
    (heffects ▸ List.mem_cons_self ..)
  refine ⟨?_, ?_, ?_, ?_⟩
  · exact List.forall_mem_cons.mpr
      ⟨⟨rfl, hsome, hstamped, hahead.merged _ hkey⟩, h.sound⟩
  · rw [List.map_cons, List.nodup_cons]
    refine ⟨fun hmem => ?_, h.distinct⟩
    obtain ⟨c, hc, heq⟩ := List.mem_map.mp hmem
    simp only [Prod.mk.injEq] at heq
    obtain ⟨hdevice, hlamport, hseq⟩ := heq
    exact hahead.unused c hc hdevice (by rw [hlamport, hseq]; exact hkey)
  · exact List.forall_mem_cons.mpr ⟨hturn.le, h.turn⟩
  · intro c hc c' hc' hdevice hlt
    rcases List.mem_cons.mp hc with rfl | hc
    · rcases List.mem_cons.mp hc' with rfl | hc'
      · exact absurd hlt (lt_irrefl _)
      · exact hahead.earlier _ hkey c' hc' hdevice hlt
    · rcases List.mem_cons.mp hc' with rfl | hc'
      · have hbound := h.turn c hc
        change p.turn < c.turn at hlt
        change i = c.device at hdevice
        rw [← hdevice] at hbound
        omega
      · exact h.ordered c hc c' hc' hdevice hlt

theorem PassUnderWay.Ahead.call {lamport seq : ℕ} {deltas : List DeltaEntry} {key : String}
    (h : p.Ahead i calls) (heffects : p.effects = .logDelta lamport seq deltas :: rest) :
    PassUnderWay.Ahead { p with effects := rest } i
      (⟨i, p.turn, p.merged, lamport, seq, key, deltas⟩ :: calls) := by
  have hkeys : p.effects.filterMap Effect.logKey =
      (lamport, seq) :: rest.filterMap Effect.logKey := by
    rw [heffects]
    rfl
  have hnodup := h.keys
  rw [hkeys, List.nodup_cons] at hnodup
  have hrest : ∀ {k}, k ∈ rest.filterMap Effect.logKey → k ∈ p.effects.filterMap Effect.logKey :=
    fun hk => hkeys ▸ List.mem_cons_of_mem _ hk
  refine ⟨fun f hf => h.stamped f (heffects ▸ List.mem_cons_of_mem _ hf), hnodup.2, ?_, ?_, ?_⟩
  · refine List.forall_mem_cons.mpr ⟨fun _ => hnodup.1, fun c hc hdevice hmem => ?_⟩
    exact h.unused c hc hdevice (hrest hmem)
  · exact fun k hk => h.merged k (hrest hk)
  · intro k hk
    refine List.forall_mem_cons.mpr ⟨fun _ hlt => absurd hlt (lt_irrefl _), ?_⟩
    exact h.earlier k (hrest hk)

theorem PassUnderWay.Ahead.other (h : p.Ahead i calls) {c : LogCall ι} (hother : c.device ≠ i) :
    p.Ahead i (c :: calls) where
  stamped := h.stamped
  keys := h.keys
  unused := List.forall_mem_cons.mpr ⟨fun hdevice => absurd hdevice hother, h.unused⟩
  merged := h.merged
  earlier := fun k hk => List.forall_mem_cons.mpr
    ⟨fun hdevice => absurd hdevice hother, h.earlier k hk⟩

end Calls

theorem preserveLoop_clock {baseline : Baseline} {conflicts : List (RemoteConflict × String)}
    {r : Preserving} : (preserveLoop baseline conflicts r).1.state.deviceId = r.state.deviceId ∧
      (preserveLoop baseline conflicts r).1.state.lamport = r.state.lamport := by
  induction conflicts generalizing r with
  | nil => exact ⟨rfl, rfl⟩
  | cons c conflicts ih =>
      rw [preserveLoop]
      cases hone : preserveOne c.2 baseline r c.1 with
      | none => exact ⟨rfl, rfl⟩
      | some r' =>
          have hsame : r'.state.deviceId = r.state.deviceId ∧ r'.state.lamport = r.state.lamport := by
            obtain ⟨rfl, -⟩ | ⟨-, rfl⟩ | ⟨source, target, -, rfl⟩ := preserveOne_cases hone
            · exact ⟨rfl, rfl⟩
            · exact ⟨rfl, rfl⟩
            · exact ⟨rfl, rfl⟩
          exact ⟨ih.1.trans hsame.1, ih.2.trans hsame.2⟩

namespace Mirrors.Invariant

variable {deviceId : ι → String} {s t : Mirrors ι} {i : ι}

theorem merged_calls {f : Folded} (h : s.Invariant deviceId)
    (hphase : (s.site.devices i).phase = .folded f) {c : LogCall ι} (hc : c ∈ s.calls)
    (hdevice : c.device = i) : c.lamport ≤ f.merged.remoteLamport := by
  have htracks := h.site.sound.tracks i
  unfold Device.Tracks at htracks
  rw [hphase] at htracks
  obtain ⟨hremembers, hcomplete⟩ := htracks
  obtain ⟨deltas, -, hmerged⟩ := h.merging i f hphase
  have hsound := h.logs.sound c hc
  obtain ⟨d, hd⟩ := List.exists_mem_of_ne_nil _ hsound.some
  have hsince : d ∈ s.site.since i := h.known i (by simp [hphase]) c hc hdevice hd
  obtain ⟨entry, hentry, hle⟩ := hcomplete.since d hsince
  have hlamport := lamport_le_of_winnerKey_le hle
  have hmax : entry.lamport ≤ maxLamport f.merged.manifest :=
    maxLamport_le.mp le_rfl entry (Manifest.mem_values.mpr ⟨_, hentry⟩)
  have hclock : maxLamport f.merged.manifest = f.merged.remoteLamport := by
    rw [hmerged]
    exact maxLamport_mergeDeltas hremembers.keysMatch deltas
  rw [hclock] at hmax
  rw [← hsound.stamped d hd]
  exact hlamport.trans hmax

theorem merging_le {f : Folded} (h : s.Invariant deviceId)
    (hphase : (s.site.devices i).phase = .folded f) :
    ∀ e ∈ s.merging i, e.lamport ≤ f.merged.remoteLamport := by
  obtain ⟨deltas, hmerging, hmerged⟩ := h.merging i f hphase
  obtain ⟨hsnapshot, hdeltas⟩ := mergeDeltas_remoteLamport_le.mp (hmerged ▸ le_rfl :
    (mergeDeltas f.snapshot.manifest deltas).remoteLamport ≤ f.merged.remoteLamport)
  intro e he
  rw [hmerging] at he
  exact (List.mem_append.mp he).elim (hsnapshot e) (hdeltas e)

theorem planned_ahead {f : Folded} {unix : String → ℕ} {turn : ℕ} {plan : Plan}
    {device : DeviceState} {events : PassEvents} (h : s.Invariant deviceId)
    (hphase : (s.site.devices i).phase = .folded f)
    (hclock : nextLamport f.merged.remoteLamport device.lamport ≤ i64Max) :
    PassUnderWay.Ahead ⟨s.merging i, unix, turn, passEffects plan f.merged.manifest
      f.merged.remoteLamport device events⟩ i s.calls := by
  have hspec : PassSpec plan f.merged.manifest events _ _ _ :=
    passEffects_spec f.merged.remoteLamport device hclock
  have hlater : ∀ key ∈ (passEffects plan f.merged.manifest f.merged.remoteLamport device
      events).filterMap Effect.logKey, f.merged.remoteLamport < key.1 := by
    intro key hkey
    have hge := hspec.keys_ge key hkey
    unfold nextLamport at hge
    omega
  refine ⟨fun e he => passEffects_stamped he, hspec.keys, ?_, ?_, ?_⟩
  · intro c hc hdevice hmem
    have hle := h.merged_calls hphase hc hdevice
    have hlt := hlater _ hmem
    change f.merged.remoteLamport < c.lamport at hlt
    omega
  · exact fun key hkey e he => (h.merging_le hphase e he).trans_lt (hlater key hkey)
  · exact fun key hkey c hc hdevice _ => (h.merged_calls hphase hc hdevice).trans_lt (hlater key hkey)

variable [DecidableEq ι]

theorem own {files : Baseline} {uploads : StringMap PendingUpload} {tree : LocalTree}
    (h : s.Invariant deviceId) : Mirrors.Invariant deviceId
      { s with state := Function.update s.state i { s.state i with files, uploads }
               tree := Function.update s.tree i tree } := by
  refine ⟨fun j => ?_, h.site, h.puts, h.logs, h.merging, h.known, h.busy⟩
  by_cases hj : j = i
  · subst hj
    simp only [Function.update_self]
    exact h.ids j
  · simp only [Function.update_of_ne hj]
    exact h.ids j

theorem request {e : Event} (h : s.Invariant deviceId) (hguard : s.Sequential (.request i e))
    (hstep : s.requestStep i e = some t) : t.Invariant deviceId := by
  unfold requestStep at hstep
  cases hpass : s.pass i with
  | some p => simp [hpass] at hstep
  | none =>
      cases hsite : s.site.step (.device i e) with
      | none => simp [hpass, hsite] at hstep
      | some site =>
          simp only [hpass, hsite, Option.some.injEq] at hstep
          subst hstep
          have horderly : site.Orderly := by
            refine h.site.request ?_ hsite
            rintro purpose rfl
            exact hguard
          simp only [Site.step] at hsite
          cases hdevice : (s.site.devices i).step s.site.bucket e with
          | none => simp [hdevice] at hsite
          | some moved =>
              obtain ⟨d, b⟩ := moved
              have hmoves := Device.step_moves hdevice
              rw [hdevice] at hsite
              cases hsite
              refine ⟨h.ids, horderly, h.puts, h.logs, ?_, ?_, ?_⟩
              · intro j f hphase
                by_cases hj : j = i
                · subst hj
                  simp only [Function.update_self] at hphase ⊢
                  obtain ⟨deltas, hmerges, hmerged⟩ := hmoves.folded hphase
                  exact ⟨deltas, by rw [hmerges]; rfl, hmerged⟩
                · simp only [Function.update_of_ne hj] at hphase ⊢
                  exact h.merging j f hphase
              · intro j hbusy c hc hown
                by_cases hj : j = i
                · subst hj
                  simp only [Function.update_self] at hbusy
                  simp only [Site.sinceAfter_self]
                  rcases hmoves.begins hbusy with ⟨purpose, rfl, -⟩ | ⟨-, hbefore⟩
                  · intro d hd
                    change d ∈ archived s.site.puts
                    rw [mem_archived, h.puts]
                    exact ⟨c.key, c.deltas, List.mem_map_of_mem hc, hd⟩
                  · have hsince : sinceOf s.site.puts (s.site.since j) e = s.site.since j := by
                      cases e with
                      | start purpose => exact absurd (Device.step_start hdevice) hbefore
                      | _ => rfl
                    rw [hsince]
                    exact h.known j hbefore c hc hown
                · simp only [Function.update_of_ne hj] at hbusy
                  simp only [Site.sinceAfter_of_ne _ _ hj]
                  exact h.known j hbusy c hc hown
              · intro j p hp
                have hj : j ≠ i := by
                  rintro rfl
                  rw [hpass] at hp
                  cases hp
                simp only [Function.update_of_ne hj]
                exact h.busy j p hp

theorem rest (h : s.Invariant deviceId) :
    (s.rest i).Orderly ∧ (∀ j f, ((s.rest i).devices j).phase = .folded f →
        (s.site.devices j).phase = .folded f) ∧
      (∀ j, ((s.rest i).devices j).phase ≠ .idle → (s.site.devices j).phase ≠ .idle) ∧
      ((s.rest i).devices i).phase = .idle := by
  have hstep : s.site.step (.device i .fail) = some (s.rest i) := rfl
  have hself : ((s.rest i).devices i).phase = .idle := by
    simp only [Mirrors.rest, Function.update_self]
    rfl
  have hother : ∀ j, j ≠ i → (s.rest i).devices j = s.site.devices j :=
    fun j hj => Function.update_of_ne hj ..
  refine ⟨h.site.request (fun _ hstart => by cases hstart) hstep, ?_, ?_, hself⟩
  · intro j f hphase
    by_cases hj : j = i
    · rw [hj, hself] at hphase
      cases hphase
    · rwa [hother j hj] at hphase
  · intro j hbusy
    by_cases hj : j = i
    · rw [hj] at hbusy
      exact absurd hself hbusy
    · rwa [hother j hj] at hbusy

theorem stop (h : s.Invariant deviceId) : Mirrors.Invariant deviceId
    { s with site := s.rest i, pass := Function.update s.pass i none } := by
  obtain ⟨horderly, hfolded, hbusy, hidle⟩ := h.rest (i := i)
  refine ⟨h.ids, horderly, h.puts, h.logs, fun j f hphase => h.merging j f (hfolded j f hphase),
    fun j hphase => h.known j (hbusy j hphase), fun j p hp => ?_⟩
  by_cases hj : j = i
  · subst hj
    simp only [Function.update_self] at hp
    cases hp
  · simp only [Function.update_of_ne hj] at hp
    obtain ⟨hphase, hrest⟩ := h.busy j p hp
    refine ⟨?_, hrest⟩
    by_contra hnot
    exact hbusy j hnot hphase

theorem effect {stamp : Option ℕ} (h : s.Invariant deviceId)
    (hids : Function.Injective deviceId) (hstep : s.effectStep i stamp = some t) :
    t.Invariant deviceId := by
  unfold effectStep at hstep
  cases hpass : s.pass i with
  | none => simp [hpass] at hstep
  | some p =>
      obtain ⟨hidle, hturn, hahead⟩ := h.busy i p hpass
      cases heffects : p.effects with
      | nil => simp [hpass, heffects] at hstep
      | cons e rest =>
          simp only [hpass, heffects, Option.some.injEq] at hstep
          subst hstep
          have hids' : ∀ j, (Function.update s.state i
              (World.run p.unix ⟨s.state i, s.tree i, ∅⟩ e).device j).deviceId = deviceId j := by
            intro j
            by_cases hj : j = i
            · subst hj
              rw [Function.update_self, World.run_deviceId]
              exact h.ids j
            · rw [Function.update_of_ne hj]
              exact h.ids j
          cases hcall : s.callOf i p e with
          | none =>
              have hkey : e.logKey = none := by
                cases e with
                | logDelta => cases hcall
                | _ => rfl
              refine ⟨hids', h.site, h.puts, h.logs, h.merging, h.known, fun j q hq => ?_⟩
              by_cases hj : j = i
              · subst hj
                simp only [Function.update_self, Option.some.injEq] at hq
                subst hq
                exact ⟨hidle, hturn, hahead.silent heffects hkey⟩
              · simp only [Function.update_of_ne hj] at hq
                exact h.busy j q hq
          | some call =>
              obtain ⟨lamport, seq, deltas, rfl, rfl⟩ : ∃ lamport seq deltas,
                  e = .logDelta lamport seq deltas ∧ call = ⟨i, p.turn, p.merged, lamport, seq,
                    deltaKey lamport (deviceId i) seq, deltas⟩ := by
                cases e with
                | logDelta lamport seq deltas =>
                    simp only [callOf, Option.some.injEq] at hcall
                    exact ⟨lamport, seq, deltas, rfl, by rw [← hcall, h.ids i]⟩
                | _ => cases hcall
              have hlogs := h.logs.call hahead hturn heffects
              have hfresh : deltaKey lamport (deviceId i) seq ∉ s.site.puts.map Prod.fst := by
                have hnodup := hlogs.keys_nodup hids
                rw [List.map_cons, List.nodup_cons] at hnodup
                rw [h.puts, List.map_map]
                exact hnodup.1
              refine ⟨hids', h.site.logDelta hfresh, ?_, hlogs, h.merging, ?_, fun j q hq => ?_⟩
              · exact congrArg _ h.puts
              · intro j hbusy c hc hdevice
                rcases List.mem_cons.mp hc with rfl | hc
                · change i = j at hdevice
                  subst hdevice
                  exact absurd hidle hbusy
                · exact h.known j hbusy c hc hdevice
              · by_cases hj : j = i
                · subst hj
                  simp only [Function.update_self, Option.some.injEq] at hq
                  subst hq
                  exact ⟨hidle, hturn, hahead.call heffects⟩
                · simp only [Function.update_of_ne hj] at hq
                  obtain ⟨hphase, hturn', hahead'⟩ := h.busy j q hq
                  exact ⟨hphase, hturn', hahead'.other (Ne.symm hj)⟩

theorem plan {options : PassOptions} {utc : ℕ → String} {events : PassEvents}
    (h : s.Invariant deviceId) (hguard : s.Sequential (.plan i options utc events))
    (hstep : s.planStep i options utc events = some t) : t.Invariant deviceId := by
  unfold planStep at hstep
  cases hpass : s.pass i with
  | some p => simp [hpass] at hstep
  | none =>
  cases hpurpose : (s.site.devices i).purpose with
  | compact grace retention => simp [hpass, hpurpose] at hstep
  | read =>
  cases hphase : (s.site.devices i).phase with
  | folded f =>
      simp only [hpass, hpurpose, hphase] at hstep
      obtain ⟨horderly, hfolded, hbusy, hidle⟩ := h.rest (i := i)
      have hclock : (preserveConflictLosers (stamped utc f.merged) (s.tree i)
            (s.state i)).1.state.deviceId = (s.state i).deviceId ∧
          (preserveConflictLosers (stamped utc f.merged) (s.tree i)
            (s.state i)).1.state.lamport = (s.state i).lamport := preserveLoop_clock
      generalize preserveConflictLosers (stamped utc f.merged) (s.tree i) (s.state i) = preserving
        at hstep hclock
      have hids : ∀ j, (Function.update s.state i preserving.1.state j).deviceId = deviceId j := by
        intro j
        by_cases hj : j = i
        · subst hj
          rw [Function.update_self, hclock.1]
          exact h.ids j
        · rw [Function.update_of_ne hj]
          exact h.ids j
      have hothers : ∀ j p, j ≠ i → s.pass j = some p → ((s.rest i).devices j).phase = .idle ∧
          p.turn = s.turns j ∧ p.Ahead j s.calls := by
        intro j p _ hp
        obtain ⟨hrests, hrest⟩ := h.busy j p hp
        refine ⟨?_, hrest⟩
        by_contra hnot
        exact hbusy j hnot hrests
      split_ifs at hstep
      · cases hstep
        refine ⟨hids, horderly, h.puts, ?_, fun j f' hf' => h.merging j f' (hfolded j f' hf'),
          fun j hnot => h.known j (hbusy j hnot), fun j p hp => ?_⟩
        · refine ⟨h.logs.sound, h.logs.distinct, fun c hc => ?_, h.logs.ordered⟩
          have hturn := h.logs.turn c hc
          change c.turn ≤ Function.update s.turns i (s.turns i + 1) c.device
          by_cases hdevice : c.device = i
          · rw [hdevice, Function.update_self]
            rw [hdevice] at hturn
            omega
          · rwa [Function.update_of_ne hdevice]
        · by_cases hj : j = i
          · subst hj
            simp only [Function.update_self, Option.some.injEq] at hp ⊢
            subst hp
            refine ⟨hidle, rfl, h.planned_ahead hphase ?_⟩
            rw [hclock.2]
            exact hguard f hphase
          · simp only [Function.update_of_ne hj] at hp ⊢
            exact hothers j p hj hp
      · cases hstep
        refine ⟨hids, horderly, h.puts, h.logs, fun j f' hf' => h.merging j f' (hfolded j f' hf'),
          fun j hnot => h.known j (hbusy j hnot), fun j p hp => hothers j p ?_ hp⟩
        rintro rfl
        rw [hpass] at hp
        cases hp
  | _ => simp [hpass, hpurpose, hphase] at hstep

theorem step {l : MirrorLabel ι} (h : s.Invariant deviceId) (hids : Function.Injective deviceId)
    (hguard : s.Sequential l) (hstep : s.step l = some t) : t.Invariant deviceId := by
  cases l with
  | request i e => exact h.request hguard hstep
  | own i files uploads tree =>
      cases hstep
      exact h.own
  | plan i options utc events => exact h.plan hguard hstep
  | effect i stamp => exact h.effect hids hstep
  | stop i =>
      cases hstep
      exact h.stop

end Mirrors.Invariant

theorem Mirrors.Initial.invariant {s : Mirrors ι} (h : s.Initial) :
    s.Invariant fun i => (s.state i).deviceId where
  ids := fun _ => rfl
  site := ⟨h.site.invariant, fun i => .idle (h.site.idle i), fun i j _ _ => h.site.idle j⟩
  puts := by rw [h.puts, h.calls]; rfl
  logs := by
    rw [h.calls]
    exact ⟨List.forall_mem_nil _, List.nodup_nil, List.forall_mem_nil _, List.forall_mem_nil _⟩
  merging := fun i f hphase => by
    rw [h.site.idle i] at hphase
    cases hphase
  known := fun i hbusy => absurd (h.site.idle i) hbusy
  busy := fun i p hp => by
    rw [h.pass i] at hp
    cases hp

/-- Whatever fails or is cut off, no two calls of `log_delta` use the same key, and every delta is
later than what its pass has merged and than what its device has logged in the passes before. -/
theorem delta_keys_fresh [DecidableEq ι] (s t : Mirrors ι) (labels : List (MirrorLabel ι))
    (hinit : s.Initial) (hids : Function.Injective fun i => (s.state i).deviceId)
    (hrun : Runs Mirrors.step Mirrors.Sequential s labels t) :
    (t.calls.map LogCall.key).Nodup ∧ ∀ c ∈ t.calls, ∀ d ∈ c.deltas,
      (∀ e ∈ c.merged, e.lamport < d.lamport) ∧
      ∀ c' ∈ t.calls, c'.device = c.device → c'.turn < c.turn →
        ∀ d' ∈ c'.deltas, d'.lamport < d.lamport := by
  have h : t.Invariant fun i => (s.state i).deviceId :=
    hrun.invariant hinit.invariant fun _ _ _ hs hguard hstep => hs.step hids hguard hstep
  refine ⟨h.logs.keys_nodup hids, fun c hc d hd => ⟨?_, ?_⟩⟩
  · rw [(h.logs.sound c hc).stamped d hd]
    exact (h.logs.sound c hc).merged
  · intro c' hc' hdevice hturn d' hd'
    rw [(h.logs.sound c hc).stamped d hd, (h.logs.sound c' hc').stamped d' hd']
    exact h.logs.ordered c hc c' hc' hdevice hturn

def Phase.isIdle : Phase → Bool
  | .idle => true
  | _ => false

theorem Phase.isIdle_iff {phase : Phase} : phase.isIdle = true ↔ phase = .idle := by
  cases phase <;> simp [Phase.isIdle]

def Mirrors.calm (s : Mirrors Role) : MirrorLabel Role → Bool
  | .request _ (.start purpose) => [Role.reader, .compactor].all fun j =>
      (!purpose.compacts || (s.site.devices j).phase.isIdle) &&
        !((s.site.devices j).purpose.compacts && !(s.site.devices j).phase.isIdle)
  | .plan i _ _ _ =>
      match (s.site.devices i).phase with
      | .folded f => decide (nextLamport f.merged.remoteLamport (s.state i).lamport ≤ i64Max)
      | _ => true
  | _ => true

theorem Mirrors.calm_sequential (s : Mirrors Role) (l : MirrorLabel Role) (h : s.calm l = true) :
    s.Sequential l := by
  cases l with
  | request i e =>
      cases e with
      | start purpose =>
          intro j
          have hj : j ∈ [Role.reader, .compactor] := by cases j <;> simp
          have hboth := List.all_eq_true.mp h j hj
          simp only [Bool.and_eq_true, Bool.or_eq_true, Bool.not_eq_true', Phase.isIdle_iff,
            Bool.and_eq_false_iff] at hboth
          obtain ⟨hidle, hrests⟩ := hboth
          refine ⟨fun hcompacts => hidle.resolve_left (by simp [hcompacts]), ?_⟩
          rintro ⟨hcompacts, hbusy⟩
          rcases hrests with hreads | hrests
          · rw [hcompacts] at hreads
            cases hreads
          · rw [Bool.not_eq_false', Phase.isIdle_iff] at hrests
            exact hbusy hrests
      | _ => trivial
  | plan i options utc events =>
      intro f hphase
      simp only [Mirrors.calm, hphase] at h
      exact of_decide_eq_true h
  | _ => trivial

def freshMirrors : Mirrors Role where
  site := .empty
  state := fun i => { deviceId := i.casesOn "phone" "tablet", deviceName := "device", files := ∅
                      uploads := ∅, lamport := 0, manifestGeneration := 0 }
  tree := fun _ => ∅
  pass := fun _ => none
  merging := fun _ => []
  turns := fun _ => 0
  calls := []

def mirrorRequest (i : Role) : MirrorLabel Role := .request i (.next 0 (some 0))

/-- A file is created, and a pass that has read the log gets to its first delta. -/
def logsFile (path : String) : List (MirrorLabel Role) :=
  [.request .reader (.start .read), mirrorRequest .reader, mirrorRequest .reader,
    mirrorRequest .reader,
    .own .reader ∅ ∅ (StringMap.single path ⟨⟨1, 1⟩, 10, true, none⟩),
    .plan .reader ⟨fun _ => false, ⟨[], [], false⟩, []⟩ (fun _ => "now")
      ⟨[], [(⟨path, .upload⟩, .uploaded ⟨1, 1, 10, "data/f"⟩)], fun _ => 0, fun _ => "now"⟩,
    .effect .reader (some 0), .stop .reader]

def foldsFile : List (MirrorLabel Role) :=
  [.request .compactor (.start (.compact 0 0)), mirrorRequest .compactor, mirrorRequest .compactor,
    .request .compactor (.fetch (deltaKey 1 "phone" 0))] ++
  List.replicate 11 (mirrorRequest .compactor)

/-- The second pass cannot tell its clock but from the snapshot. -/
theorem delta_keys_fresh_folded : ∃ t,
    execute (checked Mirrors.calm Mirrors.step) freshMirrors
      (logsFile "a" ++ foldsFile ++ logsFile "b") = some t ∧
    t.calls.map (fun c => (c.lamport, c.seq)) = [(2, 0), (1, 0)] ∧
    (t.calls.map LogCall.key).Nodup := by
  have hexecute : (execute (checked Mirrors.calm Mirrors.step) freshMirrors
      (logsFile "a" ++ foldsFile ++ logsFile "b")).map (fun t =>
        t.calls.map fun c => (c.lamport, c.seq)) = some [(2, 0), (1, 0)] := by
    decide +kernel
  obtain ⟨t, ht, hcalls⟩ := Option.map_eq_some_iff.mp hexecute
  have hids : Function.Injective fun i => (freshMirrors.state i).deviceId := by
    intro i j
    cases i <;> cases j <;> decide
  have h := delta_keys_fresh freshMirrors t _ ⟨Site.initial_empty, rfl, fun _ => rfl, rfl⟩ hids
    (checked_runs Mirrors.calm_sequential ht)
  exact ⟨t, ht, hcalls, h.1⟩

end FileMirror
