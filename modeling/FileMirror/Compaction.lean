import FileMirror.ManifestMerge
import FileMirror.LocalState
import FileMirror.ObjectKeys

set_option autoImplicit false

/-!
# Compaction, one request at a time

A device that reads the remote log, and may go on to compact it, as a machine that performs one
request to the object store in each step. The objects below the configured prefix are kept by
kind: snapshots by the generation in their name, deltas and content objects by their key.
-/

namespace FileMirror

/-- A snapshot object. Its name is bound into the ciphertext, so that it opens under the
generation it was sealed for only; `payload` is what the plaintext parses to. -/
structure SnapshotObject where
  sealedFor : ℕ
  payload : Option (List DeltaEntry)
  lastModified : Option ℕ
  deriving DecidableEq

structure DeltaObject where
  payload : Option (List DeltaEntry)
  lastModified : Option ℕ
  deriving DecidableEq

abbrev Snapshots := Std.ExtTreeMap ℕ SnapshotObject

structure Bucket where
  snapshots : Snapshots
  log : StringMap DeltaObject
  /-- Content objects, with their `last_modified`. -/
  data : StringMap (Option ℕ)

/-- `decrypt_bytes` with the object's name as associated data, then `from_json_bytes`. -/
def SnapshotObject.open? (object : SnapshotObject) (generation : ℕ) : Option Manifest :=
  if object.sealedFor = generation then object.payload.map Manifest.ofEntries else none

/-- The last key of a listing, which is in the order of the generations. -/
def Bucket.newest (b : Bucket) : Option ℕ := b.snapshots.keys.getLast?

def olderThanGrace (now modified grace : ℕ) : Bool := modified ≤ now ∧ grace ≤ now - modified

/-- `meta.last_modified` is known and older than the grace period. -/
def prunable (now grace : ℕ) (lastModified : Option ℕ) : Bool :=
  lastModified.any fun modified => olderThanGrace now modified grace

structure Snapshot where
  manifest : Manifest
  generation : Option ℕ
  modifiedAt : Option ℕ

/-- What one compaction works on from its merge to its end. -/
structure Folded where
  snapshot : Snapshot
  metas : List (String × Option ℕ)
  merged : MergeResult

inductive Purpose where
  | read
  | compact (grace retention : ℕ)
  deriving DecidableEq

inductive Phase where
  | idle
  /-- `from_store` has listed the snapshots. -/
  | listed (newest : Option (ℕ × Option ℕ))
  | snapshotHeld (snapshot : Snapshot)
  /-- `read_deltas` has listed the log and fetches the pending keys. -/
  | fetching (snapshot : Snapshot) (metas : List (String × Option ℕ)) (pending : List String)
      (deltas : List DeltaEntry)
  | folded (f : Folded)
  | putting (f : Folded) (generation : ℕ)
  | stored (f : Folded) (generation : ℕ)
  | recorded (f : Folded)
  | verifying (f : Folded) (newest : Option (ℕ × Option ℕ))
  | pruning (f : Folded) (todo : List (String × Option ℕ))
  | dropped (f : Folded)
  | refetching (f : Folded) (pending : List String) (deltas : List DeltaEntry)
  | collecting (referenced : List String) (todo : List (String × Option ℕ))

/-- A device's recorded generation, and what it is doing. -/
structure Device where
  generation : ℕ
  purpose : Purpose
  phase : Phase

/-- What makes a device move: the start of an operation, the next request (with the clock it
reads and the time the store would stamp), one of the concurrent delta reads, a failed content
delete that the collector passes over, or an error or crash. -/
inductive Event where
  | start (purpose : Purpose)
  | next (now : ℕ) (stamp : Option ℕ)
  | fetch (key : String)
  | skip
  | fail
  deriving DecidableEq

/-- `state.record_manifest_generation`. -/
def recordGeneration (generation : ℕ) : ℕ := min generation i64Max

/-- The latter half of `from_store`: fetch, check for a rollback, open, record. -/
def openNewest (recorded : ℕ) (b : Bucket) (generation : ℕ) : Option (Manifest × ℕ) :=
  match b.snapshots[generation]? with
  | none => none
  | some object =>
      if generation < recorded then none
      else
        match object.open? generation with
        | none => none
        | some manifest =>
            some (manifest, if recorded < generation then recordGeneration generation else recorded)

def listNewest (b : Bucket) : Option (ℕ × Option ℕ) :=
  b.newest.map fun generation => (generation, b.snapshots[generation]?.bind (·.lastModified))

def listLog (b : Bucket) : List (String × Option ℕ) :=
  b.log.toList.map fun entry => (entry.1, entry.2.lastModified)

def listData (b : Bucket) : List (String × Option ℕ) := b.data.toList

def Device.fail (d : Device) : Device := { d with phase := .idle }

/-- `to_store`'s put of the sealed snapshot. -/
def Bucket.putSnapshot (b : Bucket) (generation : ℕ) (manifest : Manifest) (stamp : Option ℕ) :
    Bucket :=
  let object : SnapshotObject := ⟨generation, some manifest.values, stamp⟩
  { b with snapshots := b.snapshots.insert generation object }

def referencedBy (manifest : Manifest) (deltas : List DeltaEntry) : List String :=
  (manifest.values ++ deltas).map DeltaEntry.objectKey

def Device.next (now : ℕ) (stamp : Option ℕ) (d : Device) (b : Bucket) : Option (Device × Bucket) :=
  match d.phase with
  | .idle => none
  | .listed none => some ({ d with phase := .snapshotHeld ⟨∅, none, some now⟩ }, b)
  | .listed (some (generation, modified)) =>
      match openNewest d.generation b generation with
      | none => some (d.fail, b)
      | some (manifest, recorded) =>
          let snapshot : Snapshot := ⟨manifest, some generation, modified⟩
          some ({ d with generation := recorded, phase := .snapshotHeld snapshot }, b)
  | .snapshotHeld snapshot =>
      let metas := listLog b
      some ({ d with phase := .fetching snapshot metas (metas.map Prod.fst) [] }, b)
  | .fetching snapshot metas [] deltas =>
      let merged := mergeDeltas snapshot.manifest deltas
      some ({ d with phase := .folded ⟨snapshot, metas, merged⟩ }, b)
  | .fetching _ _ (_ :: _) _ => none
  | .folded f =>
      match d.purpose with
      | .read => some (d.fail, b)
      | .compact _ _ =>
          let highest := b.newest.getD d.generation
          -- with overflow checks, a generation past `u64::MAX` ends the compaction
          if highest + 1 < 2 ^ 64 then some ({ d with phase := .putting f (highest + 1) }, b)
          else some (d.fail, b)
  | .putting f generation =>
      some ({ d with phase := .stored f generation },
        b.putSnapshot generation f.merged.manifest stamp)
  | .stored f generation =>
      some ({ d with generation := recordGeneration generation, phase := .recorded f }, b)
  | .recorded f => some ({ d with phase := .verifying f (listNewest b) }, b)
  | .verifying f newest =>
      let latest : Option (Manifest × ℕ) :=
        match newest with
        | none => some (∅, d.generation)
        | some (generation, _) => openNewest d.generation b generation
      match latest with
      | none => some (d.fail, b)
      | some (manifest, recorded) =>
          let d := { d with generation := recorded }
          if f.merged.manifest = manifest then some ({ d with phase := .pruning f f.metas }, b)
          else some (d.fail, b)
  | .pruning f ((key, modified) :: todo) =>
      match d.purpose with
      | .read => none
      | .compact grace _ =>
          let d := { d with phase := .pruning f todo }
          if prunable now grace modified then some (d, { b with log := b.log.erase key })
          else some (d, b)
  | .pruning f [] =>
      match d.purpose with
      | .read => none
      | .compact grace _ =>
          let d := { d with phase := .dropped f }
          match f.snapshot.generation with
          | none => some (d, b)
          | some generation =>
              if prunable now grace f.snapshot.modifiedAt then
                some (d, { b with snapshots := b.snapshots.erase generation })
              else some (d, b)
  | .dropped f =>
      some ({ d with phase := .refetching f ((listLog b).map Prod.fst) [] }, b)
  | .refetching f [] deltas =>
      let referenced := referencedBy f.merged.manifest deltas
      some ({ d with phase := .collecting referenced (listData b) }, b)
  | .refetching _ (_ :: _) _ => none
  | .collecting referenced ((key, modified) :: todo) =>
      match d.purpose with
      | .read => none
      | .compact _ retention =>
          let d := { d with phase := .collecting referenced todo }
          if key ∈ referenced ∨ ¬ prunable now retention modified then some (d, b)
          else some (d, { b with data := b.data.erase key })
  | .collecting _ [] => some (d.fail, b)

def Device.fetch (key : String) (d : Device) (b : Bucket) : Option (Device × Bucket) :=
  match d.phase with
  | .fetching snapshot metas pending deltas =>
      if key ∈ pending then
        match b.log[key]?.bind DeltaObject.payload with
        | none => some (d.fail, b)
        | some read =>
            let phase := Phase.fetching snapshot metas (pending.erase key) (deltas ++ read)
            some ({ d with phase }, b)
      else none
  | .refetching f pending deltas =>
      if key ∈ pending then
        match b.log[key]?.bind DeltaObject.payload with
        | none => some (d.fail, b)
        | some read =>
            some ({ d with phase := .refetching f (pending.erase key) (deltas ++ read) }, b)
      else none
  | _ => none

def Device.step (d : Device) (b : Bucket) : Event → Option (Device × Bucket)
  | .start purpose =>
      match d.phase with
      | .idle => some ({ d with purpose, phase := .listed (listNewest b) }, b)
      | _ => none
  | .next now stamp => d.next now stamp b
  | .fetch key => d.fetch key b
  | .skip =>
      match d.phase with
      | .collecting referenced (_ :: todo) =>
          some ({ d with phase := .collecting referenced todo }, b)
      | _ => none
  | .fail => some (d.fail, b)

def Device.nextRelease (now : ℕ) (stamp : Option ℕ) (d : Device) (b : Bucket) :
    Option (Device × Bucket) :=
  match d.phase, d.purpose with
  | .folded f, .compact _ _ =>
      some ({ d with phase := .putting f ((b.newest.getD d.generation + 1) % 2 ^ 64) }, b)
  | _, _ => d.next now stamp b

def Device.stepRelease (d : Device) (b : Bucket) : Event → Option (Device × Bucket)
  | .next now stamp => d.nextRelease now stamp b
  | e => d.step b e

theorem Device.stepRelease_eq {d : Device} {b : Bucket} {e : Event}
    (h : ∀ f, d.phase = .folded f → b.newest.getD d.generation + 1 < 2 ^ 64) :
    d.stepRelease b e = d.step b e := by
  cases e with
  | next now stamp =>
      obtain ⟨g, p, phase⟩ := d
      cases phase with
      | folded f =>
          cases p with
          | read => rfl
          | compact grace retention =>
              have hbound := h f rfl
              simp only [stepRelease, nextRelease, step, next]
              rw [if_pos hbound, Nat.mod_eq_of_lt hbound]
      | _ => rfl
  | _ => rfl

inductive Moves (b : Bucket) : Device → Event → Device → Bucket → Prop where
  | start {g : ℕ} {p p' : Purpose} :
      Moves b ⟨g, p, .idle⟩ (.start p') ⟨g, p', .listed (listNewest b)⟩ b
  | stop {d : Device} {e : Event} : Moves b d e ⟨d.generation, d.purpose, .idle⟩ b
  | empty {g : ℕ} {p : Purpose} {now : ℕ} {stamp : Option ℕ} :
      Moves b ⟨g, p, .listed none⟩ (.next now stamp) ⟨g, p, .snapshotHeld ⟨∅, none, some now⟩⟩ b
  | opened {g : ℕ} {p : Purpose} {now : ℕ} {stamp : Option ℕ} {generation recorded : ℕ}
      {modified : Option ℕ} {manifest : Manifest}
      (hopen : openNewest g b generation = some (manifest, recorded)) :
      Moves b ⟨g, p, .listed (some (generation, modified))⟩ (.next now stamp)
        ⟨recorded, p, .snapshotHeld ⟨manifest, some generation, modified⟩⟩ b
  | listLog {g : ℕ} {p : Purpose} {now : ℕ} {stamp : Option ℕ} {s : Snapshot} :
      Moves b ⟨g, p, .snapshotHeld s⟩ (.next now stamp)
        ⟨g, p, .fetching s (listLog b) ((listLog b).map Prod.fst) []⟩ b
  | fetch {g : ℕ} {p : Purpose} {s : Snapshot} {metas : List (String × Option ℕ)}
      {pending : List String} {deltas read : List DeltaEntry} {key : String}
      (hkey : key ∈ pending) (hread : b.log[key]?.bind DeltaObject.payload = some read) :
      Moves b ⟨g, p, .fetching s metas pending deltas⟩ (.fetch key)
        ⟨g, p, .fetching s metas (pending.erase key) (deltas ++ read)⟩ b
  | merge {g : ℕ} {p : Purpose} {now : ℕ} {stamp : Option ℕ} {s : Snapshot}
      {metas : List (String × Option ℕ)} {deltas : List DeltaEntry} :
      Moves b ⟨g, p, .fetching s metas [] deltas⟩ (.next now stamp)
        ⟨g, p, .folded ⟨s, metas, mergeDeltas s.manifest deltas⟩⟩ b
  | choose {g : ℕ} {grace retention now : ℕ} {stamp : Option ℕ} {f : Folded}
      (hbound : b.newest.getD g + 1 < 2 ^ 64) :
      Moves b ⟨g, .compact grace retention, .folded f⟩ (.next now stamp)
        ⟨g, .compact grace retention, .putting f (b.newest.getD g + 1)⟩ b
  | put {g : ℕ} {p : Purpose} {now : ℕ} {stamp : Option ℕ} {f : Folded} {generation : ℕ} :
      Moves b ⟨g, p, .putting f generation⟩ (.next now stamp) ⟨g, p, .stored f generation⟩
        (b.putSnapshot generation f.merged.manifest stamp)
  | record {g : ℕ} {p : Purpose} {now : ℕ} {stamp : Option ℕ} {f : Folded} {generation : ℕ} :
      Moves b ⟨g, p, .stored f generation⟩ (.next now stamp)
        ⟨recordGeneration generation, p, .recorded f⟩ b
  | relist {g : ℕ} {p : Purpose} {now : ℕ} {stamp : Option ℕ} {f : Folded} :
      Moves b ⟨g, p, .recorded f⟩ (.next now stamp) ⟨g, p, .verifying f (listNewest b)⟩ b
  | verifiedEmpty {g : ℕ} {p : Purpose} {now : ℕ} {stamp : Option ℕ} {f : Folded}
      (hmanifest : f.merged.manifest = ∅) :
      Moves b ⟨g, p, .verifying f none⟩ (.next now stamp) ⟨g, p, .pruning f f.metas⟩ b
  | verified {g : ℕ} {p : Purpose} {now : ℕ} {stamp : Option ℕ} {f : Folded}
      {generation recorded : ℕ} {modified : Option ℕ}
      (hopen : openNewest g b generation = some (f.merged.manifest, recorded)) :
      Moves b ⟨g, p, .verifying f (some (generation, modified))⟩ (.next now stamp)
        ⟨recorded, p, .pruning f f.metas⟩ b
  | mismatch {g : ℕ} {p : Purpose} {e : Event} {f : Folded} {generation recorded : ℕ}
      {modified : Option ℕ} {manifest : Manifest}
      (hopen : openNewest g b generation = some (manifest, recorded)) :
      Moves b ⟨g, p, .verifying f (some (generation, modified))⟩ e ⟨recorded, p, .idle⟩ b
  | keepDelta {g grace retention now : ℕ} {stamp : Option ℕ} {f : Folded}
      {key : String} {modified : Option ℕ} {todo : List (String × Option ℕ)} :
      Moves b ⟨g, .compact grace retention, .pruning f ((key, modified) :: todo)⟩ (.next now stamp)
        ⟨g, .compact grace retention, .pruning f todo⟩ b
  | pruneDelta {g grace retention now : ℕ} {stamp : Option ℕ} {f : Folded}
      {key : String} {modified : Option ℕ} {todo : List (String × Option ℕ)}
      (hold : prunable now grace modified = true) :
      Moves b ⟨g, .compact grace retention, .pruning f ((key, modified) :: todo)⟩ (.next now stamp)
        ⟨g, .compact grace retention, .pruning f todo⟩ { b with log := b.log.erase key }
  | keepSnapshot {g grace retention now : ℕ} {stamp : Option ℕ} {f : Folded} :
      Moves b ⟨g, .compact grace retention, .pruning f []⟩ (.next now stamp)
        ⟨g, .compact grace retention, .dropped f⟩ b
  | dropSnapshot {g grace retention now : ℕ} {stamp : Option ℕ} {f : Folded} {generation : ℕ}
      (hgeneration : f.snapshot.generation = some generation) :
      Moves b ⟨g, .compact grace retention, .pruning f []⟩ (.next now stamp)
        ⟨g, .compact grace retention, .dropped f⟩
        { b with snapshots := b.snapshots.erase generation }
  | relistLog {g : ℕ} {p : Purpose} {now : ℕ} {stamp : Option ℕ} {f : Folded} :
      Moves b ⟨g, p, .dropped f⟩ (.next now stamp)
        ⟨g, p, .refetching f ((FileMirror.listLog b).map Prod.fst) []⟩ b
  | refetch {g : ℕ} {p : Purpose} {f : Folded} {pending : List String}
      {deltas read : List DeltaEntry} {key : String} (hkey : key ∈ pending)
      (hread : b.log[key]?.bind DeltaObject.payload = some read) :
      Moves b ⟨g, p, .refetching f pending deltas⟩ (.fetch key)
        ⟨g, p, .refetching f (pending.erase key) (deltas ++ read)⟩ b
  | listData {g : ℕ} {p : Purpose} {now : ℕ} {stamp : Option ℕ} {f : Folded}
      {deltas : List DeltaEntry} :
      Moves b ⟨g, p, .refetching f [] deltas⟩ (.next now stamp)
        ⟨g, p, .collecting (referencedBy f.merged.manifest deltas) (FileMirror.listData b)⟩ b
  | keepData {g : ℕ} {p : Purpose} {e : Event} {referenced : List String}
      {entry : String × Option ℕ} {todo : List (String × Option ℕ)} :
      Moves b ⟨g, p, .collecting referenced (entry :: todo)⟩ e ⟨g, p, .collecting referenced todo⟩ b
  | deleteData {g : ℕ} {p : Purpose} {now : ℕ} {stamp : Option ℕ} {referenced : List String}
      {key : String} {modified : Option ℕ} {todo : List (String × Option ℕ)}
      (hkey : key ∉ referenced) :
      Moves b ⟨g, p, .collecting referenced ((key, modified) :: todo)⟩ (.next now stamp)
        ⟨g, p, .collecting referenced todo⟩ { b with data := b.data.erase key }

section Phases

variable {now g : ℕ} {stamp : Option ℕ} {purpose : Purpose} {d : Device} {b b' : Bucket}

theorem listed_moves {newest : Option (ℕ × Option ℕ)}
    (h : Device.next now stamp ⟨g, purpose, .listed newest⟩ b = some (d, b')) :
    Moves b ⟨g, purpose, .listed newest⟩ (.next now stamp) d b' := by
  cases newest with
  | none =>
      cases h
      exact .empty
  | some newest =>
      simp only [Device.next] at h
      cases hopen : openNewest g b newest.1 with
      | none =>
          rw [hopen] at h
          cases h
          exact .stop
      | some opened =>
          rw [hopen] at h
          cases h
          exact .opened hopen

theorem folded_moves {f : Folded}
    (h : Device.next now stamp ⟨g, purpose, .folded f⟩ b = some (d, b')) :
    Moves b ⟨g, purpose, .folded f⟩ (.next now stamp) d b' := by
  cases purpose with
  | read =>
      cases h
      exact .stop
  | compact grace retention =>
      simp only [Device.next] at h
      split_ifs at h with hbound
      · cases h
        exact .choose hbound
      · cases h
        exact .stop

theorem verifying_moves {f : Folded} {newest : Option (ℕ × Option ℕ)}
    (h : Device.next now stamp ⟨g, purpose, .verifying f newest⟩ b = some (d, b')) :
    Moves b ⟨g, purpose, .verifying f newest⟩ (.next now stamp) d b' := by
  cases newest with
  | none =>
      simp only [Device.next] at h
      split_ifs at h with hmanifest
      · cases h
        exact .verifiedEmpty hmanifest
      · cases h
        exact .stop
  | some newest =>
      simp only [Device.next] at h
      cases hopen : openNewest g b newest.1 with
      | none =>
          rw [hopen] at h
          cases h
          exact .stop
      | some opened =>
          rw [hopen] at h
          simp only at h
          split_ifs at h with hmanifest
          · cases h
            exact .verified (hmanifest ▸ hopen)
          · cases h
            exact .mismatch hopen

theorem pruning_moves {f : Folded} {todo : List (String × Option ℕ)}
    (h : Device.next now stamp ⟨g, purpose, .pruning f todo⟩ b = some (d, b')) :
    Moves b ⟨g, purpose, .pruning f todo⟩ (.next now stamp) d b' := by
  cases purpose with
  | read => cases todo <;> cases h
  | compact grace retention =>
      cases todo with
      | nil =>
          simp only [Device.next] at h
          cases hgeneration : f.snapshot.generation with
          | none =>
              rw [hgeneration] at h
              cases h
              exact .keepSnapshot
          | some generation =>
              rw [hgeneration] at h
              simp only at h
              split_ifs at h
              · cases h
                exact .dropSnapshot hgeneration
              · cases h
                exact .keepSnapshot
      | cons entry todo =>
          simp only [Device.next] at h
          split_ifs at h with hold
          · cases h
            exact .pruneDelta hold
          · cases h
            exact .keepDelta

theorem collecting_moves {referenced : List String} {todo : List (String × Option ℕ)}
    (h : Device.next now stamp ⟨g, purpose, .collecting referenced todo⟩ b = some (d, b')) :
    Moves b ⟨g, purpose, .collecting referenced todo⟩ (.next now stamp) d b' := by
  cases todo with
  | nil =>
      cases h
      exact .stop
  | cons entry todo =>
      cases purpose with
      | read => cases h
      | compact grace retention =>
          simp only [Device.next] at h
          split_ifs at h with hkeep
          · cases h
            exact .keepData
          · cases h
            exact .deleteData fun hkey => hkeep (.inl hkey)

end Phases

theorem Device.next_moves {now : ℕ} {stamp : Option ℕ} {d d' : Device} {b b' : Bucket}
    (h : d.next now stamp b = some (d', b')) : Moves b d (.next now stamp) d' b' := by
  obtain ⟨g, p, phase⟩ := d
  cases phase with
  | idle => cases h
  | listed newest => exact listed_moves h
  | snapshotHeld s =>
      cases h
      exact .listLog
  | fetching s metas pending deltas =>
      cases pending with
      | nil =>
          cases h
          exact .merge
      | cons key pending => cases h
  | folded f => exact folded_moves h
  | putting f generation =>
      cases h
      exact .put
  | stored f generation =>
      cases h
      exact .record
  | recorded f =>
      cases h
      exact .relist
  | verifying f newest => exact verifying_moves h
  | pruning f todo => exact pruning_moves h
  | dropped f =>
      cases h
      exact .relistLog
  | refetching f pending deltas =>
      cases pending with
      | nil =>
          cases h
          exact .listData
      | cons key pending => cases h
  | collecting referenced todo => exact collecting_moves h

theorem Device.fetch_moves {key : String} {d d' : Device} {b b' : Bucket}
    (h : d.fetch key b = some (d', b')) : Moves b d (.fetch key) d' b' := by
  obtain ⟨g, p, phase⟩ := d
  cases phase with
  | fetching s metas pending deltas =>
      simp only [Device.fetch] at h
      split_ifs at h with hkey
      cases hread : b.log[key]?.bind DeltaObject.payload with
      | none =>
          rw [hread] at h
          cases h
          exact .stop
      | some read =>
          rw [hread] at h
          cases h
          exact .fetch hkey hread
  | refetching f pending deltas =>
      simp only [Device.fetch] at h
      split_ifs at h with hkey
      cases hread : b.log[key]?.bind DeltaObject.payload with
      | none =>
          rw [hread] at h
          cases h
          exact .stop
      | some read =>
          rw [hread] at h
          cases h
          exact .refetch hkey hread
  | _ => cases h

theorem Device.step_moves {e : Event} {d d' : Device} {b b' : Bucket}
    (h : d.step b e = some (d', b')) : Moves b d e d' b' := by
  cases e with
  | next now stamp => exact Device.next_moves h
  | fetch key => exact Device.fetch_moves h
  | fail =>
      cases h
      exact .stop
  | start purpose =>
      obtain ⟨g, p, phase⟩ := d
      cases phase with
      | idle =>
          cases h
          exact .start
      | _ => cases h
  | skip =>
      obtain ⟨g, p, phase⟩ := d
      cases phase with
      | collecting referenced todo =>
          cases todo with
          | nil => cases h
          | cons entry todo =>
              cases h
              exact .keepData
      | _ => cases h

end FileMirror
