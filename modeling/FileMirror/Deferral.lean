import FileMirror.Scanner

set_option autoImplicit false

namespace FileMirror

/-- Tombstones the file, or overwrites, removes or renames its bytes. -/
def ActionKind.disturbs : ActionKind → Bool
  | .download | .hydrate | .createPlaceholder | .deleteLocal | .deleteRemote | .conflict => true
  | .relocate | .upload | .updatePlaceholder => false

/-- What keeps a file that was not scanned out of harm's way. Beside a placeholder of its own it
needs a live remote version that need not be local, or no version on either side; without a
placeholder it must be neither live remotely nor evicted. -/
def SafelyAbsent (stub : Option StubMeta) (record : Option FileRecord)
    (there : Option ContentHash) (wantsLocal : Bool) (path : String) : Prop :=
  match stub with
  | some stub => stub.path ≠ path ∨
      ((there.isSome → wantsLocal = false) ∧
        (there = none → record.bind FileRecord.lastSyncedHash = none))
  | none => there = none ∧ ¬ record.any FileRecord.isEvicted

instance (stub : Option StubMeta) (record : Option FileRecord) (there : Option ContentHash)
    (wantsLocal : Bool) (path : String) :
    Decidable (SafelyAbsent stub record there wantsLocal path) :=
  match stub with
  | some _ => inferInstanceAs (Decidable (_ ∨ _))
  | none => inferInstanceAs (Decidable (_ ∧ _))

def scanView (ignored : String → Bool) (tree : LocalTree) (baseline : Baseline) (policy : Policy)
    (hydrate : List String) : ResidencyView :=
  ⟨dropStale (scanAllWith ignored baseline tree), policy, hydrate⟩

section Deferred

variable {ignored : String → Bool} {tree : LocalTree} {baseline : Baseline} {path : String}
  {file : DiskFile}

theorem deferred_localHash (hfile : tree[path]? = some file)
    (hdeferred : scanFile baseline path file = .deferred) :
    localHash (scanAllWith ignored baseline tree).entries path = none := by
  rw [localHash_eq_none]
  rintro entry hentry rfl
  obtain ⟨f, hf, hscan⟩ := scan_entries_path hentry
  rw [hfile, Option.some.injEq] at hf
  subst hf
  rw [hdeferred] at hscan
  cases hscan

theorem deferred_placeholder (hfile : tree[path]? = some file)
    (hdeferred : scanFile baseline path file = .deferred) (policy : Policy)
    (hydrate : List String) :
    (scanView ignored tree baseline policy hydrate).placeholders[path]? =
      stubFor ignored tree path := by
  refine Option.ext fun stub => ?_
  have hlocal : localHash (scanAllWith ignored baseline tree).entries path = none :=
    deferred_localHash hfile hdeferred
  have hnone := localHash_eq_none.mp hlocal
  rw [scanView, dropStale_eq_some, scan_placeholders, and_iff_left]
  rintro ⟨entry, hentry, hpath⟩
  exact absurd hpath (hnone entry hentry)

end Deferred

section Absent

variable {entries : List LocalEntry} {baseline : Baseline} {remote : Manifest}
  {view : ResidencyView} {path : String}

theorem placeholderAction_undisturbing {stub : StubMeta} (hstub : stub.path = path)
    (record : Option FileRecord) :
    (∀ kind, (placeholderAction path stub record
        (classify (remote.liveHash path) (record.bind FileRecord.lastSyncedHash)) remote view).1
          = some kind → kind.disturbs = false) ↔
      ((remote.liveHash path).isSome → view.wantsLocal path = false) ∧
        (remote.liveHash path = none → record.bind FileRecord.lastSyncedHash = none) := by
  rw [placeholderAction, if_neg (not_not.mpr hstub)]
  cases hthere : remote.liveHash path with
  | none =>
      cases record.bind FileRecord.lastSyncedHash <;> simp [classify, ActionKind.disturbs]
  | some there =>
      cases hbase : record.bind FileRecord.lastSyncedHash with
      | none => cases hw : view.wantsLocal path <;> simp [classify, ActionKind.disturbs]
      | some base =>
          by_cases heq : there = base <;> cases hw : view.wantsLocal path <;>
            simp [classify, heq, ActionKind.disturbs]

theorem planPath_absent_iff (hlocal : localHash entries path = none) :
    (∀ kind, (planPath entries baseline remote view path).1 = some kind →
        kind.disturbs = false) ↔
      SafelyAbsent view.placeholders[path]? baseline[path]? (remote.liveHash path)
        (view.wantsLocal path) path := by
  simp only [planPath, hlocal, Option.isSome_none, Bool.false_eq_true, if_false]
  cases hstub : view.placeholders[path]? with
  | some stub =>
      by_cases hpath : stub.path = path
      · simp only [SafelyAbsent, hpath, ne_eq, not_true_eq_false, false_or]
        exact placeholderAction_undisturbing hpath baseline[path]?
      · simp only [SafelyAbsent, ne_eq, hpath, not_false_eq_true, true_or, iff_true]
        intro kind hkind
        rw [placeholderAction, if_pos hpath] at hkind
        split at hkind
        · cases hkind
        · split_ifs at hkind
          cases hkind
          rfl
  | none =>
      simp only [SafelyAbsent]
      cases hevicted : baseline[path]?.any FileRecord.isEvicted with
      | true =>
          cases hchange : classify (remote.liveHash path) (baseline.lastSynced path) <;>
            simp [ActionKind.disturbs]
      | false =>
          cases hthere : remote.liveHash path with
          | none => cases baseline.lastSynced path <;> simp [classify, decideAction]
          | some there =>
              cases hbase : baseline.lastSynced path with
              | none =>
                  cases view.policy.arrivesOnlineOnly path <;>
                    simp [classify, decideAction, ActionKind.disturbs]
              | some base =>
                  by_cases heq : there = base <;>
                    simp [classify, decideAction, heq, ActionKind.disturbs]

end Absent

/-- The plan leaves a deferred file alone exactly when nothing there would disturb an absent one:
its presence on disk plays no part. -/
theorem deferred_undisturbed_iff (ignored : String → Bool) (tree : LocalTree)
    (baseline : Baseline) (remote : Manifest) (policy : Policy) (hydrate : List String)
    (path : String) (file : DiskFile) (hfile : tree[path]? = some file)
    (hdeferred : scanFile baseline path file = .deferred) :
    (∀ kind, ⟨path, kind⟩ ∈ (reconcileWith (scanAllWith ignored baseline tree).entries baseline
        remote (scanView ignored tree baseline policy hydrate)).actions →
      kind.disturbs = false) ↔
    SafelyAbsent (stubFor ignored tree path) baseline[path]? (remote.liveHash path)
      ((scanView ignored tree baseline policy hydrate).wantsLocal path) path := by
  simp only [mem_reconcileWith]
  rw [planPath_absent_iff (deferred_localHash hfile hdeferred),
    deferred_placeholder hfile hdeferred]

/-- A file that its user is writing to: larger than the baseline remembers, and still moving. -/
def growing : DiskFile := ⟨⟨2, 7⟩, 21, false, none⟩

theorem filter_disturbs_eq_nil {actions : List Action} {path : String}
    (h : ∀ kind, ⟨path, kind⟩ ∈ actions → kind.disturbs = false) :
    actions.filter (fun action => action.path = path ∧ action.kind.disturbs) = [] := by
  refine List.filter_eq_nil_iff.mpr fun action ha hdisturbs => ?_
  obtain ⟨rfl, hkind⟩ := of_decide_eq_true hdisturbs
  rw [h action.kind ha] at hkind
  cases hkind

theorem deferred_undisturbed_iff_growing :
    (reconcileWith (scanAllWith (fun _ => false) ∅ (.single "draft" growing)).entries ∅ ∅
        (scanView (fun _ => false) (.single "draft" growing) ∅ ⟨[], [], false⟩ [])).actions.filter
      (fun action => action.path = "draft" ∧ action.kind.disturbs) = [] :=
  filter_disturbs_eq_nil ((deferred_undisturbed_iff (fun _ => false) (.single "draft" growing)
    ∅ ∅ ⟨[], [], false⟩ [] "draft" growing (by decide) (by decide)).mpr (by decide))

/-- Both sides agree on the version before the one being written: the pass tombstones the file. -/
theorem deferred_file_tombstoned :
    scanFile (.single "draft" (.synced "draft" 1 20)) "draft" growing = .deferred ∧
    (reconcileWith
        (scanAllWith (fun _ => false) (.single "draft" (.synced "draft" 1 20))
          (.single "draft" growing)).entries
        (.single "draft" (.synced "draft" 1 20))
        (.single "draft" (.sample "draft" "laptop" 1 20 none))
        (scanView (fun _ => false) (.single "draft" growing)
          (.single "draft" (.synced "draft" 1 20)) ⟨[], [], false⟩ [])).actions =
      [⟨"draft", .deleteRemote⟩] := by
  decide +kernel

end FileMirror
