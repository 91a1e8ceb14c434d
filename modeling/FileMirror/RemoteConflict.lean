import FileMirror.LocalTree

set_option autoImplicit false

namespace FileMirror

structure PreservedConflicts where
  renamed : List String
  relocations : List (String × DeltaEntry)
  deriving DecidableEq

structure Preserving where
  tree : LocalTree
  state : DeviceState
  preserved : PreservedConflicts

/-- The placeholder still stands for the loser's version. -/
def evictedLoser (baseline : Baseline) (loser : DeltaEntry) : Bool :=
  match baseline[loser.path]? with
  | none => false
  | some record => record.isEvicted && record.lastSyncedHash == some loser.plaintextHash

/-- One conflict; `none` is an error, which ends the loop. -/
def preserveOne (timestamp : String) (baseline : Baseline) (r : Preserving)
    (conflict : RemoteConflict) : Option Preserving :=
  let loser := conflict.loser
  if loser.deviceId ≠ r.state.deviceId then some r
  else
    match safeJoin loser.path with
    | none => none
    | some source =>
        let newPath := replaceName loser.path
          (conflictName loser.path timestamp r.state.deviceName)
        match r.tree[source]? with
        | none =>
            if evictedLoser baseline loser then
              let relocations := r.preserved.relocations ++ [(newPath, loser)]
              some { r with preserved := { r.preserved with relocations } }
            else some r
        | some file =>
            match file.hashStable with
            | none => some r
            | some (_, _, hash) =>
                if hash ≠ loser.plaintextHash then some r
                else
                  match safeJoin newPath with
                  | none => none
                  | some target =>
                      let renamed := r.preserved.renamed ++ [newPath]
                      some { tree := r.tree.rename source target
                             state := r.state.remove loser.path
                             preserved := { r.preserved with renamed } }

/-- The loop; the flag tells whether it came to its end. The baseline is read once, before it,
and the clock once for each conflict. -/
def preserveLoop (baseline : Baseline) :
    List (RemoteConflict × String) → Preserving → Preserving × Bool
  | [], r => (r, true)
  | (conflict, timestamp) :: rest, r =>
      match preserveOne timestamp baseline r conflict with
      | none => (r, false)
      | some r => preserveLoop baseline rest r

/-- Where the conflicted copy of `path` goes. -/
def copyPath (timestamp deviceName path : String) : String :=
  replaceName path (conflictName path timestamp deviceName)

def preserveConflictLosers (conflicts : List (RemoteConflict × String)) (tree : LocalTree)
    (state : DeviceState) : Preserving × Bool :=
  preserveLoop state.files conflicts ⟨tree, state, ⟨[], []⟩⟩

def Preserving.Relocates (baseline : Baseline) (r : Preserving) (loser : DeltaEntry) : Prop :=
  loser.deviceId = r.state.deviceId ∧ evictedLoser baseline loser = true ∧
    ∃ source, safeJoin loser.path = some source ∧ r.tree[source]? = none

/-- In this state the loser's bytes stand at `source` and their copy is to go to `target`. -/
structure Preserving.Renames (timestamp : String) (r : Preserving) (loser : DeltaEntry)
    (source target : String) : Prop where
  own : loser.deviceId = r.state.deviceId
  named : safeJoin loser.path = some source
  copied : safeJoin (copyPath timestamp r.state.deviceName loser.path) = some target
  holds : ∃ file, r.tree[source]? = some file ∧ file.settled = true ∧
    file.contents = loser.plaintextHash

section Preserve

variable {timestamp : String} {baseline : Baseline} {r r' : Preserving}
  {conflict : RemoteConflict}

theorem Preserving.Renames.at_source {loser : DeltaEntry} {source target other : String}
    (h : r.Renames timestamp loser other target) (hsource : safeJoin loser.path = some source) :
    other = source ∧ ∃ file, r.tree[source]? = some file ∧
      file.settled = true ∧ file.contents = loser.plaintextHash := by
  have hsame := h.named
  rw [hsource] at hsame
  cases hsame
  exact ⟨rfl, h.holds⟩

theorem preserveOne_cases (h : preserveOne timestamp baseline r conflict = some r') :
    (r' = r ∧ ¬ r.Relocates baseline conflict.loser ∧
      ∀ source target, ¬ r.Renames timestamp conflict.loser source target) ∨
    (r.Relocates baseline conflict.loser ∧
      r' = { r with preserved := { r.preserved with
        relocations := r.preserved.relocations ++
          [(copyPath timestamp r.state.deviceName conflict.loser.path, conflict.loser)] } }) ∨
    (∃ source target, r.Renames timestamp conflict.loser source target ∧
      r' = ⟨r.tree.rename source target, r.state.remove conflict.loser.path,
        { r.preserved with renamed := r.preserved.renamed ++
          [copyPath timestamp r.state.deviceName conflict.loser.path] }⟩) := by
  simp only [preserveOne] at h
  by_cases hown : conflict.loser.deviceId = r.state.deviceId
  swap
  · rw [if_pos hown] at h
    cases h
    exact .inl ⟨rfl, fun hr => hown hr.1, fun _ _ hr => hown hr.own⟩
  rw [if_neg (not_not.mpr hown)] at h
  cases hsource : safeJoin conflict.loser.path with
  | none => simp [hsource] at h
  | some source =>
  simp only [hsource] at h
  cases hfile : r.tree[source]? with
  | none =>
      have habsent : ∀ source target, ¬ r.Renames timestamp conflict.loser source target := by
        intro other target hr
        obtain ⟨-, file, hheld, -⟩ := hr.at_source hsource
        rw [hfile] at hheld
        cases hheld
      simp only [hfile] at h
      cases hevicted : evictedLoser baseline conflict.loser with
      | false =>
          rw [hevicted] at h
          cases h
          exact .inl ⟨rfl, fun hr => by simp [hr.2.1] at hevicted, habsent⟩
      | true =>
          rw [hevicted, if_pos rfl] at h
          cases h
          exact .inr (.inl ⟨⟨hown, hevicted, source, hsource, hfile⟩, rfl⟩)
  | some file =>
      have hstays : ¬ r.Relocates baseline conflict.loser := by
        rintro ⟨-, -, other, hother, habsent⟩
        rw [hsource] at hother
        cases hother
        rw [hfile] at habsent
        cases habsent
      simp only [hfile, DiskFile.hashStable] at h
      by_cases hsettled : file.settled = true
      swap
      · rw [if_neg hsettled] at h
        cases h
        refine .inl ⟨rfl, hstays, fun other target hr => ?_⟩
        obtain ⟨-, held, hheld, hstill, -⟩ := hr.at_source hsource
        rw [hfile] at hheld
        cases hheld
        exact hsettled hstill
      rw [if_pos hsettled] at h
      by_cases hhash : file.contents = conflict.loser.plaintextHash
      swap
      · simp only [if_pos hhash] at h
        cases h
        refine .inl ⟨rfl, hstays, fun other target hr => ?_⟩
        obtain ⟨-, held, hheld, -, hsame⟩ := hr.at_source hsource
        rw [hfile] at hheld
        cases hheld
        exact hhash hsame
      simp only [if_neg (not_not.mpr hhash)] at h
      cases htarget : safeJoin (copyPath timestamp r.state.deviceName conflict.loser.path) with
      | none =>
          rw [copyPath] at htarget
          simp [htarget] at h
      | some target =>
          have htarget' := htarget
          rw [copyPath] at htarget'
          simp only [htarget'] at h
          cases h
          exact .inr (.inr ⟨source, target,
            ⟨hown, hsource, htarget, file, hfile, hsettled, hhash⟩, rfl⟩)

theorem preserveOne_eq_none (h : preserveOne timestamp baseline r conflict = none) :
    ¬ r.Relocates baseline conflict.loser ∧
      ∀ source target, ¬ r.Renames timestamp conflict.loser source target := by
  constructor
  · rintro ⟨hown, hevicted, source, hsource, habsent⟩
    simp [preserveOne, hown, hsource, habsent, hevicted] at h
  · intro source target hr
    obtain ⟨file, hfile, hsettled, hhash⟩ := hr.holds
    have htarget := hr.copied
    rw [copyPath] at htarget
    simp [preserveOne, hr.own, hr.named, hfile, DiskFile.hashStable, hsettled, hhash,
      htarget] at h

theorem Preserving.Relocates.no_rename {loser : DeltaEntry} (h : r.Relocates baseline loser)
    (source target : String) : ¬ r.Renames timestamp loser source target := by
  obtain ⟨-, -, other, hother, habsent⟩ := h
  intro hr
  obtain ⟨-, file, hfile, -⟩ := hr.at_source hother
  rw [habsent] at hfile
  cases hfile

theorem preserveOne_row {path : String} {row : FileRecord}
    (h : preserveOne timestamp baseline r conflict = some r')
    (hrow : r'.state.files[path]? = some row) : r.state.files[path]? = some row := by
  obtain ⟨rfl, -⟩ | ⟨-, rfl⟩ | ⟨source, target, -, rfl⟩ := preserveOne_cases h
  · exact hrow
  · exact hrow
  · simp only [DeviceState.remove, StringMap.getElem?_erase] at hrow
    split_ifs at hrow
    exact hrow

theorem preserveLoop_row {conflicts : List (RemoteConflict × String)} {path : String}
    {row : FileRecord}
    (hrow : (preserveLoop baseline conflicts r).1.state.files[path]? = some row) :
    r.state.files[path]? = some row := by
  induction conflicts generalizing r with
  | nil => exact hrow
  | cons c conflicts ih =>
      rw [preserveLoop] at hrow
      cases hone : preserveOne c.2 baseline r c.1 with
      | none =>
          rw [hone] at hrow
          exact hrow
      | some r' =>
          rw [hone] at hrow
          exact preserveOne_row hone (ih hrow)

end Preserve

end FileMirror
