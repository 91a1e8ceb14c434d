import FileMirror.DeviceRuns
import FileMirror.Streaming

set_option autoImplicit false

namespace FileMirror

inductive Skip where
  | notTracked
  | alreadyEvicted
  | notSynced
  | pendingUpload
  | remoteUnverified
  | changed
  deriving DecidableEq

def eligible (record : Option FileRecord) (manifest : Manifest) (pendingUploads : List String) :
    Except Skip Unit :=
  match record with
  | none => .error .notTracked
  | some record =>
      if record.isEvicted then .error .alreadyEvicted
      else if record.lastSyncedHash ≠ some record.contentHash then .error .notSynced
      else if record.path ∈ pendingUploads then .error .pendingUpload
      else
        match manifest[record.path]? with
        | none => .error .notSynced
        | some entry =>
            if !entry.deleted && entry.plaintextHash = record.contentHash then .ok ()
            else .error .notSynced

/-- What an eviction meets: the object's length as `head` reports it (an error, none or some),
whether the verification succeeds where it is asked for, the clock, the mode, and what the file is
once it is moved aside. -/
structure EvictEvents where
  head : Option (Option ℕ)
  verified : Bool
  evictedAt : ℕ
  mode : Option ℕ
  aside : DiskFile

inductive EvictEffect where
  | markEvicted (path : String)
  | writePlaceholder (stub : StubMeta)
  | moveAside (file : String)
  | unlinkAside
  | putBack (file : String) (aside : DiskFile)
  | removePlaceholder (path : String)
  | markLocal (path : String)
  deriving DecidableEq

inductive EvictResult where
  | evicted
  | skipped (skip : Skip)
  | failed
  deriving DecidableEq

/-- The placeholder of an eviction; only the permission bits of the mode are kept. -/
def evictStub (record : FileRecord) (entry : DeltaEntry) (file : DiskFile)
    (events : EvictEvents) : StubMeta :=
  { StubMeta.new record.path file.stat.size entry.plaintextHash entry.objectKey events.evictedAt
      (some file.stat.mtimeNs) with
    mode := events.mode.map (· % 0o10000) }

def evictEffects (record : FileRecord) (entry : DeltaEntry) (target : String) (file : DiskFile)
    (events : EvictEvents) : List EvictEffect :=
  [.markEvicted record.path, .writePlaceholder (evictStub record entry file events),
    .moveAside target] ++
    if events.aside.stat = file.stat then [.unlinkAside]
    else [.putBack target events.aside, .removePlaceholder record.path, .markLocal record.path]

def evictOne (tree : LocalTree) (manifest : Manifest) (record : Option FileRecord)
    (pendingUploads : List String) (events : EvictEvents) : List EvictEffect × EvictResult :=
  match eligible record manifest pendingUploads with
  | .error skip => ([], .skipped skip)
  | .ok () =>
      match record, record.bind fun record => manifest[record.path]? with
      | some record, some entry =>
          match safeJoin record.path with
          | none => ([], .failed)
          | some target =>
              match tree[target]? with
              | none => ([], .failed)
              | some file =>
                  match file.hashStable, events.head with
                  | none, _ => ([], .skipped .changed)
                  | some (_, _, hash), head =>
                      if hash ≠ entry.plaintextHash then ([], .skipped .notSynced)
                      else if head = none then ([], .failed)
                      else if head ≠ some (some (ciphertextLen entry.size)) || !events.verified then
                        ([], .skipped .remoteUnverified)
                      else
                        (evictEffects record entry target file events,
                          if events.aside.stat = file.stat then .evicted else .skipped .changed)
      | _, _ => ([], .failed)

/-- A file that is aside is in `.mirror/tmp`, where no pass looks. -/
def World.evicting (w : World) : EvictEffect → World
  | .markEvicted path => { w with device := w.device.markEvicted path }
  | .writePlaceholder stub => { w with tree := w.tree.insert (stubRel stub.path) (stubFile stub) }
  | .moveAside file => { w with tree := w.tree.erase file }
  | .unlinkAside => w
  | .putBack file aside => { w with tree := w.tree.insert file aside }
  | .removePlaceholder path => { w with tree := w.tree.erase (stubRel path) }
  | .markLocal path => { w with device := w.device.markLocal path }

/-- The row, the file and the live remote version agree, no upload is pending, and the object has
been found to have the right length. -/
structure EvictionAgrees (tree : LocalTree) (manifest : Manifest) (record : FileRecord)
    (pendingUploads : List String) (events : EvictEvents) (entry : DeltaEntry) (target : String)
    (file : DiskFile) : Prop where
  resident : record.isEvicted = false
  synced : record.lastSyncedHash = some record.contentHash
  idle : record.path ∉ pendingUploads
  listed : manifest[record.path]? = some entry
  live : entry.deleted = false
  remote : entry.plaintextHash = record.contentHash
  named : safeJoin record.path = some target
  found : tree[target]? = some file
  settled : file.settled = true
  contents : file.contents = record.contentHash
  object : events.head = some (some (ciphertextLen entry.size))

section EvictOne

variable {tree : LocalTree} {manifest : Manifest} {record : FileRecord}
  {pendingUploads : List String} {events : EvictEvents}

theorem eligible_ok (h : eligible (some record) manifest pendingUploads = .ok ()) :
    record.isEvicted = false ∧ record.lastSyncedHash = some record.contentHash ∧
      record.path ∉ pendingUploads ∧ ∃ entry, manifest[record.path]? = some entry ∧
        entry.deleted = false ∧ entry.plaintextHash = record.contentHash := by
  unfold eligible at h
  simp only at h
  split_ifs at h with hevicted hsynced hpending
  cases hentry : manifest[record.path]? with
  | none =>
      rw [hentry] at h
      cases h
  | some entry =>
      rw [hentry] at h
      simp only at h
      split_ifs at h with hlive
      rw [Bool.and_eq_true, Bool.not_eq_true', decide_eq_true_eq] at hlive
      exact ⟨Bool.eq_false_iff.mpr hevicted, not_not.mp hsynced, hpending, entry, rfl, hlive⟩

theorem evictOne_begins
    (h : (evictOne tree manifest (some record) pendingUploads events).1 ≠ []) :
    ∃ entry target file,
      EvictionAgrees tree manifest record pendingUploads events entry target file ∧
        (evictOne tree manifest (some record) pendingUploads events).1 =
          evictEffects record entry target file events := by
  unfold evictOne at h ⊢
  cases heligible : eligible (some record) manifest pendingUploads with
  | error skip =>
      rw [heligible] at h
      exact absurd rfl h
  | ok done =>
      obtain ⟨hresident, hsynced, hidle, entry, hentry, hlive, hremote⟩ := eligible_ok heligible
      simp only [heligible, Option.bind_some, hentry] at h ⊢
      cases hnamed : safeJoin record.path with
      | none => simp [hnamed] at h
      | some target =>
          cases hfound : tree[target]? with
          | none => simp [hnamed, hfound] at h
          | some file =>
              cases hsettled : file.settled with
              | false => simp [hnamed, hfound, DiskFile.hashStable, hsettled] at h
              | true =>
                  simp only [hnamed, hfound, DiskFile.hashStable, hsettled, if_true] at h ⊢
                  by_cases hhash : file.contents = entry.plaintextHash
                  swap
                  · exact absurd (by rw [if_pos hhash]) h
                  rw [if_neg (not_not.mpr hhash)] at h ⊢
                  by_cases hhead : events.head = none
                  · exact absurd (by rw [if_pos hhead]) h
                  rw [if_neg hhead] at h ⊢
                  by_cases hobject : (events.head ≠ some (some (ciphertextLen entry.size)) ||
                      !events.verified) = true
                  · exact absurd (by rw [if_pos hobject]) h
                  rw [if_neg hobject]
                  have hlength : events.head = some (some (ciphertextLen entry.size)) := by
                    by_contra hne
                    exact hobject (by simp [hne])
                  exact ⟨entry, target, file, ⟨hresident, hsynced, hidle, hentry, hlive, hremote,
                    hnamed, hfound, hsettled, hhash.trans hremote, hlength⟩, rfl⟩

end EvictOne

end FileMirror
