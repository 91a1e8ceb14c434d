import FileMirror.PassOrigins
import FileMirror.MovedPlaceholders
import FileMirror.RacingEdits

set_option autoImplicit false

namespace FileMirror

open WriteAhead

/-- A name as the scan takes it, and none that is kept for a placeholder. -/
structure Mirrorable (path : String) : Prop where
  canonical : safeJoin path = some path
  unreserved : stripStubSuffix path = none
  named : path ≠ ""

theorem Mirrorable.ne_stubRel {path : String} (h : Mirrorable path) (q : String) :
    path ≠ stubRel q := by
  rintro rfl
  have hreserved := h.unreserved
  rw [stripStubSuffix_eq_some.mpr rfl] at hreserved
  cases hreserved

theorem stubRel_ne (path : String) : stubRel path ≠ path := by
  intro h
  have hlength := congrArg (fun s : String => s.toList.length) h
  simp [stubRel, stubSuffix] at hlength

def DeviceState.Agreed (s : DeviceState) (path : String) (hash : ContentHash)
    (record : FileRecord) : Prop :=
  s.files[path]? = some record ∧ record.lastSyncedHash = some hash ∧ record.contentHash = hash

namespace LocalTree

def HoldsReal (t : LocalTree) (path : String) (hash : ContentHash) : Prop :=
  ∃ file, t[path]? = some file ∧ file.settled = true ∧ file.contents = hash

def HoldsStub (t : LocalTree) (path : String) (hash : ContentHash) : Prop :=
  t[path]? = none ∧ ∃ file stub, t[stubRel path]? = some file ∧ file.stub = some stub ∧
    stub.path = path ∧ stub.hash = hashText hash

end LocalTree

/-- The content stands at the path, or the row is evicted and a placeholder stands in. -/
def World.Recoverable (w : World) (path : String) (hash : ContentHash) : Prop :=
  ∃ record, w.device.Agreed path hash record ∧
    (w.tree.HoldsReal path hash ∨ record.isEvicted = true ∧ w.tree.HoldsStub path hash)

/-- What the pass reads leaves the path alone: the remote version is the synced one, the user's
ignore file does not hide the file, and nothing else is to get its name or its placeholder's. -/
structure Round.LeavesAlone (r : Round) (w : World) (path : String) (hash : ContentHash) : Prop where
  live : r.merged.manifest.liveHash path = some hash
  seen : excluded r.options.ignored path = false
  row : w.device.files[stubRel path]? = none
  entry : r.merged.manifest[stubRel path]? = none
  own : ∀ e, r.merged.manifest[path]? = some e → e.path = path
  others : ∀ q e, r.merged.manifest[q]? = some e → q ≠ path →
    safeJoin e.path ≠ some path ∧ safeJoin e.path ≠ some (stubRel path)
  losers : ∀ c ∈ r.conflicts, c.1.loser.deviceId = w.device.deviceId →
    (safeJoin c.1.loser.path = some path → c.1.loser.plaintextHash ≠ hash) ∧
      safeJoin c.1.loser.path ≠ some (stubRel path) ∧
      safeJoin (copyPath c.2 w.device.deviceName c.1.loser.path) ≠ some path ∧
      safeJoin (copyPath c.2 w.device.deviceName c.1.loser.path) ≠ some (stubRel path)
  copies : ∀ q, safeJoin (copyPath (r.events.utc q) w.device.deviceName q) ≠ some path ∧
    safeJoin (copyPath (r.events.utc q) w.device.deviceName q) ≠ some (stubRel path)
  resumed : ∀ u ∈ r.events.uploads, safeJoin u.1.path ≠ some path ∧
    safeJoin u.1.path ≠ some (stubRel path)

section Preserve

variable {r : Round} {w : World} {path : String} {hash : ContentHash}

/-- The loop over the conflicts brings nothing to the path, and nothing to its placeholder's place. -/
structure Preserving.Clears (p : Preserving) (w : World) (path : String) : Prop where
  absent : w.tree[path]? = none → p.tree[path]? = none
  stub : p.tree[stubRel path]? = w.tree[stubRel path]?
  stubRow : w.device.files[stubRel path]? = none → p.state.files[stubRel path]? = none
  deviceId : p.state.deviceId = w.device.deviceId
  deviceName : p.state.deviceName = w.device.deviceName
  copies : ∀ c ∈ p.preserved.relocations, c.1 ≠ path

structure Preserving.Spared (p : Preserving) (w : World) (path : String) : Prop extends
    p.Clears w path where
  file : p.tree[path]? = w.tree[path]?
  row : p.state.files[path]? = w.device.files[path]?
  losers : ∀ c ∈ p.preserved.relocations, c.2.path ≠ path

theorem getElem?_rename_other {t : LocalTree} {source target other : String}
    (hsource : other ≠ source) (htarget : other ≠ target) :
    (t.rename source target)[other]? = t[other]? := by
  unfold LocalTree.rename
  cases t[source]? with
  | none => rfl
  | some f =>
      simp only
      rw [StringMap.getElem?_insert, if_neg htarget.symm, StringMap.getElem?_erase,
        if_neg hsource.symm]

def World.Settled (w : World) (path : String) (hash : ContentHash) : Prop :=
  ∃ record, w.device.Agreed path hash record ∧
    (w.tree.HoldsReal path hash ∨ w.tree[path]? = none)

theorem World.Recoverable.settled (h : w.Recoverable path hash) : w.Settled path hash := by
  obtain ⟨record, hrow, hreal | ⟨-, hstub⟩⟩ := h
  · exact ⟨record, hrow, .inl hreal⟩
  · exact ⟨record, hrow, .inr hstub.1⟩

theorem preserveOne_clears {p p' : Preserving} {c : RemoteConflict × String}
    (hname : Mirrorable path) (hspares : r.LeavesAlone w path hash) (hc : c ∈ r.conflicts)
    (hp : p.Clears w path) (hone : preserveOne c.2 w.device.files p c.1 = some p') :
    p'.Clears w path := by
  obtain ⟨rfl, -⟩ | ⟨hrelocates, rfl⟩ | ⟨source, target, hrenames, rfl⟩ := preserveOne_cases hone
  · exact hp
  · have hown := hrelocates.1
    rw [hp.deviceId] at hown
    obtain ⟨-, -, hcopy, -⟩ := hspares.losers c hc hown
    refine ⟨hp.absent, hp.stub, hp.stubRow, hp.deviceId, hp.deviceName, fun d hd => ?_⟩
    rcases List.mem_append.mp hd with hd | hd
    · exact hp.copies d hd
    · rw [List.mem_singleton.mp hd, hp.deviceName]
      intro heq
      simp only at heq
      rw [heq] at hcopy
      exact hcopy hname.canonical
  · have hown := hrenames.own
    rw [hp.deviceId] at hown
    obtain ⟨-, hreserved, hcopy, hcopyStub⟩ := hspares.losers c hc hown
    have hcopied := hrenames.copied
    rw [hp.deviceName] at hcopied
    have htarget : path ≠ target := fun heq => hcopy (heq ▸ hcopied)
    have htargetStub : stubRel path ≠ target := fun heq => hcopyStub (heq ▸ hcopied)
    have hsourceStub : stubRel path ≠ source := fun heq => hreserved (heq ▸ hrenames.named)
    refine ⟨fun hnone => ?_, ?_, fun hnone => ?_, hp.deviceId, hp.deviceName, hp.copies⟩
    · obtain ⟨file, hfile, -⟩ := hrenames.holds
      have habsent := hp.absent hnone
      have hsource : path ≠ source := by
        rintro rfl
        rw [habsent] at hfile
        cases hfile
      exact (getElem?_rename_other hsource htarget).trans habsent
    · rw [getElem?_rename_other hsourceStub htargetStub, hp.stub]
    · simp only [DeviceState.remove]
      rw [StringMap.getElem?_erase, hp.stubRow hnone]
      split_ifs <;> rfl

theorem preserveOne_spared {p p' : Preserving} {c : RemoteConflict × String}
    (hname : Mirrorable path) (hspares : r.LeavesAlone w path hash) (hsettled : w.Settled path hash)
    (hc : c ∈ r.conflicts) (hp : p.Spared w path)
    (hone : preserveOne c.2 w.device.files p c.1 = some p') : p'.Spared w path := by
  obtain ⟨record, ⟨hrow, hsynced, hcontent⟩, hheld⟩ := hsettled
  have hclears := preserveOne_clears hname hspares hc hp.toClears hone
  obtain ⟨rfl, -⟩ | ⟨hrelocates, rfl⟩ | ⟨source, target, hrenames, rfl⟩ := preserveOne_cases hone
  · exact hp
  · obtain ⟨hown, hevicted, -⟩ := hrelocates
    rw [hp.deviceId] at hown
    obtain ⟨hloser, -⟩ := hspares.losers c hc hown
    refine ⟨hclears, hp.file, hp.row, fun d hd => ?_⟩
    rcases List.mem_append.mp hd with hd | hd
    · exact hp.losers d hd
    · rw [List.mem_singleton.mp hd]
      -- an evicted loser of this path has the hash that was synced
      intro heq
      have hsame : c.1.loser.plaintextHash = hash := by
        simp only at heq
        simp only [evictedLoser, heq, hrow, Bool.and_eq_true, beq_iff_eq, hsynced,
          Option.some.injEq] at hevicted
        exact hevicted.2.symm
      exact hloser (heq ▸ hname.canonical) hsame
  · have hown := hrenames.own
    rw [hp.deviceId] at hown
    obtain ⟨hloser, -, hcopy, -⟩ := hspares.losers c hc hown
    have hcopied := hrenames.copied
    rw [hp.deviceName] at hcopied
    have htarget : path ≠ target := fun heq => hcopy (heq ▸ hcopied)
    have hsource : path ≠ source := by
      rintro rfl
      obtain ⟨file, hfile, -, hhash⟩ := hrenames.holds
      rw [hp.file] at hfile
      rcases hheld with ⟨held, hat, -, hcontents⟩ | hnone
      · rw [hfile] at hat
        cases hat
        exact hloser hrenames.named (hhash.symm.trans hcontents)
      · rw [hfile] at hnone
        cases hnone
    have hpath : c.1.loser.path ≠ path := by
      intro heq
      have hsame := hrenames.named
      rw [heq, hname.canonical, Option.some.injEq] at hsame
      exact hsource hsame
    refine ⟨hclears, ?_, ?_, hp.losers⟩
    · rw [getElem?_rename_other hsource htarget, hp.file]
    · simp only [DeviceState.remove]
      rw [StringMap.getElem?_erase, if_neg hpath, hp.row]

theorem preserveLoop_keeps {P : Preserving → Prop} {conflicts : List (RemoteConflict × String)}
    {p : Preserving} (hsub : conflicts ⊆ r.conflicts)
    (hone : ∀ p p' c, c ∈ r.conflicts → P p →
      preserveOne c.2 w.device.files p c.1 = some p' → P p')
    (hp : P p) : P (preserveLoop w.device.files conflicts p).1 := by
  induction conflicts generalizing p with
  | nil => exact hp
  | cons c conflicts ih =>
      have hrest : conflicts ⊆ r.conflicts := fun _ hc => hsub (List.mem_cons_of_mem _ hc)
      rw [preserveLoop]
      cases hnext : preserveOne c.2 w.device.files p c.1 with
      | none => exact hp
      | some p' => exact ih hrest (hone p p' c (hsub (List.mem_cons_self ..)) hp hnext)

theorem Round.LeavesAlone.clears (hspares : r.LeavesAlone w path hash) (hname : Mirrorable path) :
    (r.preserved w).Clears w path := by
  refine preserveLoop_keeps (fun _ => id) (P := fun p => p.Clears w path) ?_ ?_
  · intro p p' c hc hp hone
    exact preserveOne_clears hname hspares hc hp hone
  · exact ⟨id, rfl, id, rfl, rfl, List.forall_mem_nil _⟩

theorem Round.LeavesAlone.preserved (hspares : r.LeavesAlone w path hash) (hname : Mirrorable path)
    (hsettled : w.Settled path hash) : (r.preserved w).Spared w path := by
  refine preserveLoop_keeps (fun _ => id) (P := fun p => p.Spared w path) ?_ ?_
  · intro p p' c hc hp hone
    exact preserveOne_spared hname hspares hsettled hc hp hone
  · exact ⟨⟨id, rfl, id, rfl, rfl, List.forall_mem_nil _⟩, rfl, rfl, List.forall_mem_nil _⟩

end Preserve

section Scan

variable {options : PassOptions} {cache : Baseline} {device : DeviceState} {tree : LocalTree}
  {path : String} {hash : ContentHash} {ignored : String → Bool}

theorem foldl_erase_stubs {paths : List String} {other : String}
    (h : ∀ q ∈ paths, stubRel q ≠ other) :
    (paths.foldl (fun (tree : LocalTree) path => tree.erase (stubRel path)) tree)[other]? =
      tree[other]? := by
  induction paths generalizing tree with
  | nil => rfl
  | cons q paths ih =>
      rw [List.foldl_cons, ih fun p hp => h p (List.mem_cons_of_mem _ hp),
        StringMap.getElem?_erase, if_neg (h q (List.mem_cons_self ..))]

theorem removeStale_file (hname : Mirrorable path) :
    (removeStale options device tree)[path]? = tree[path]? :=
  foldl_erase_stubs fun q _ => (hname.ne_stubRel q).symm

theorem removeStale_stub (habsent : tree[path]? = none) :
    (removeStale options device tree)[stubRel path]? = tree[stubRel path]? := by
  refine foldl_erase_stubs fun q hq heq => ?_
  obtain rfl := stubRel_injective heq
  simp only [List.mem_filter, Std.ExtTreeMap.mem_keys, Bool.not_eq_true'] at hq
  obtain ⟨hplaceholder, hstale⟩ := hq
  obtain ⟨stub, hstub⟩ := Option.isSome_iff_exists.mp
    (Std.ExtTreeMap.isSome_getElem?_iff_mem.mpr hplaceholder)
  have hkept : (dropStale (scanAllWith options.ignored device.files tree))[q]? = some stub := by
    refine dropStale_eq_some.mpr ⟨hstub, ?_⟩
    rintro ⟨e, he, rfl⟩
    obtain ⟨file, hfile, -⟩ := scan_entries_path he
    rw [habsent] at hfile
    cases hfile
  rw [Std.ExtTreeMap.contains_eq_isSome_getElem?, hkept] at hstale
  cases hstale

theorem localHash_real {record : FileRecord} (hname : Mirrorable path)
    (hseen : excluded ignored path = false) (hrow : cache[path]? = some record)
    (hcontent : record.contentHash = hash) (hreal : tree.HoldsReal path hash) :
    (∀ e ∈ (scanAllWith ignored cache tree).entries, e.path = path → e.hash = hash) ∧
      localHash (scanAllWith ignored cache tree).entries path = some hash := by
  obtain ⟨file, hfile, hsettled, hcontents⟩ := hreal
  have hfound : ∃ e, scanFile cache path file = .entry e ∧ e.hash = hash := by
    simp only [scanFile, hname.unreserved, DiskFile.hashStable, hsettled, if_true]
    cases hcached : Baseline.cached cache path file.stat.size file.stat.mtimeNs with
    | none => exact ⟨_, rfl, hcontents⟩
    | some found =>
        refine ⟨_, rfl, ?_⟩
        simp only [Baseline.cached, hrow] at hcached
        split_ifs at hcached
        cases hcached
        exact hcontent
  obtain ⟨e, hentry, hhash⟩ := hfound
  have hall : ∀ e ∈ (scanAllWith ignored cache tree).entries, e.path = path → e.hash = hash := by
    rintro e' he' rfl
    obtain ⟨file', hfile', hentry'⟩ := scan_entries_path he'
    rw [hfile] at hfile'
    cases hfile'
    rw [hentry] at hentry'
    cases hentry'
    exact hhash
  refine ⟨hall, localHash_eq_some ⟨e, ?_, scanFile_entry hentry⟩ hall⟩
  exact mem_scan_entries.mpr ⟨(path, file), mem_walk.mpr ⟨hfile, hseen⟩, hentry⟩

theorem localHash_reserved : localHash (scanAllWith ignored cache tree).entries (stubRel path) =
    none := by
  rw [localHash_eq_none]
  intro e he hpath
  obtain ⟨file, -, hentry⟩ := scan_entries_path he
  rw [hpath, scanFile, stripStubSuffix_eq_some.mpr rfl] at hentry
  simp only at hentry
  split at hentry
  · split_ifs at hentry
  · cases hentry

end Scan

section Planned

variable {r : Round} {w : World} {path : String} {hash : ContentHash} {kind : ActionKind}

theorem foldl_addRelocation_other {plan : Plan} {relocations : List (String × DeltaEntry)}
    {a : Action} (hother : ∀ c ∈ relocations, c.1 ≠ a.path ∧ c.2.path ≠ a.path)
    (h : a ∈ (relocations.foldl addRelocation plan).actions) : a ∈ plan.actions := by
  induction relocations generalizing plan with
  | nil => exact h
  | cons c relocations ih =>
      obtain ⟨hcopy, hloser⟩ := hother c (List.mem_cons_self ..)
      have hfirst := ih (fun d hd => hother d (List.mem_cons_of_mem _ hd)) h
      simp only [addRelocation, List.mem_append, List.mem_map, List.mem_singleton] at hfirst
      rcases hfirst with ⟨b, hb, rfl⟩ | rfl
      · split_ifs at hloser ⊢ with hhit
        · exact absurd hhit.1.symm hloser
        · exact hb
      · exact absurd rfl hcopy

theorem Round.planned_file (hname : Mirrorable path) :
    (r.planned w).tree[path]? = (r.preserved w).tree[path]? := by
  dsimp only [Round.planned]
  exact removeStale_file hname

theorem Round.planned_stub (habsent : (r.preserved w).tree[path]? = none) :
    (r.planned w).tree[stubRel path]? = (r.preserved w).tree[stubRel path]? := by
  dsimp only [Round.planned]
  exact removeStale_stub habsent

namespace Round.LeavesAlone

theorem decided (hspares : r.LeavesAlone w path hash) (hname : Mirrorable path)
    (hsettled : w.Settled path hash) (h : ⟨path, kind⟩ ∈ (r.passPlan w).plan.actions) :
    (planPath (r.entries w) (r.preserved w).state.files r.merged.manifest (r.view w) path).1 =
      some kind := by
  simp only [passPlan, planFrom, mem_sortActions] at h
  have hspared := hspares.preserved hname hsettled
  exact mem_reconcileWith.mp (foldl_addRelocation_other
    (fun c hc => ⟨hspared.copies c hc, hspared.losers c hc⟩) h)

theorem real (hspares : r.LeavesAlone w path hash) (hname : Mirrorable path) {record : FileRecord}
    (hrow : w.device.Agreed path hash record) (hreal : w.tree.HoldsReal path hash) :
    (∀ e ∈ r.entries w, e.path = path → e.hash = hash) ∧
      ∀ kind, ⟨path, kind⟩ ∉ (r.passPlan w).plan.actions := by
  have hsettled : w.Settled path hash := ⟨record, hrow, .inl hreal⟩
  have hspared := hspares.preserved hname hsettled
  obtain ⟨hrecord, hsynced, hcontent⟩ := hrow
  have hkept : (r.preserved w).tree.HoldsReal path hash := by
    obtain ⟨file, hfile, hsame⟩ := hreal
    exact ⟨file, hspared.file.trans hfile, hsame⟩
  have hrow' := hspared.row.trans hrecord
  have hlocal : (∀ e ∈ r.entries w, e.path = path → e.hash = hash) ∧
      localHash (r.entries w) path = some hash :=
    localHash_real hname hspares.seen hrow' hcontent hkept
  refine ⟨hlocal.1, fun kind hmem => ?_⟩
  have hdecided := hspares.decided hname hsettled hmem
  have hbase : Baseline.lastSynced (r.preserved w).state.files path = some hash := by
    rw [Baseline.lastSynced, hrow', Option.bind_some, hsynced]
  rw [planPath_local hlocal.2, hspares.live, hbase] at hdecided
  simp [classify, decideAction] at hdecided

theorem placeholder (hspares : r.LeavesAlone w path hash) (hname : Mirrorable path)
    (habsent : w.tree[path]? = none) : localHash (r.entries w) path = none ∧
      (r.passPlan w).scan.placeholders[path]? =
        if excluded r.options.ignored (stubRel path) then none
        else w.tree[stubRel path]?.bind DiskFile.stub := by
  have hclears := hspares.clears hname
  have hnone : localHash (r.entries w) path = none := localHash_absent (hclears.absent habsent)
  refine ⟨hnone, Option.ext fun stub => ?_⟩
  change (dropStale _)[path]? = some stub ↔ _
  rw [dropStale_eq_some, scan_placeholders, stubFor, hclears.stub]
  simp only [hname.named, false_or]
  refine and_iff_left ?_
  rintro ⟨e, he, hpath⟩
  exact absurd hpath (localHash_eq_none.mp hnone e he)

theorem stub (hspares : r.LeavesAlone w path hash) (hname : Mirrorable path)
    (hfinds : excluded r.options.ignored (stubRel path) = false) {record : FileRecord}
    (hrow : w.device.Agreed path hash record) (hevicted : record.isEvicted = true)
    (hstub : w.tree.HoldsStub path hash) (hmem : ⟨path, kind⟩ ∈ (r.passPlan w).plan.actions) :
    kind = .hydrate := by
  obtain ⟨habsent, file, stub, hfile, hread, hpath, -⟩ := hstub
  have hsettled : w.Settled path hash := ⟨record, hrow, .inr habsent⟩
  obtain ⟨hnone, hfound⟩ := hspares.placeholder hname habsent
  obtain ⟨hrecord, hsynced, -⟩ := hrow
  have hrow' := (hspares.preserved hname hsettled).row.trans hrecord
  rw [hfinds, if_neg Bool.false_ne_true, hfile, Option.bind_some, hread] at hfound
  have hview : (r.view w).placeholders[path]? = some stub := hfound
  have hbase : Baseline.lastSynced (r.preserved w).state.files path = some hash := by
    rw [Baseline.lastSynced, hrow', Option.bind_some, hsynced]
  have hdecided := hspares.decided hname hsettled hmem
  simp only [planPath, hnone, hview, hrow', hbase, hspares.live, placeholderAction, hpath,
    hsynced, classify, hevicted, Option.isSome_none, Option.bind_some, Option.any_some, ne_eq,
    not_true_eq_false, Bool.false_eq_true, if_false, if_true] at hdecided
  split_ifs at hdecided
  exact (Option.some.inj hdecided).symm

theorem reserved (hspares : r.LeavesAlone w path hash) (hname : Mirrorable path)
    (hmem : ⟨stubRel path, kind⟩ ∈ (r.passPlan w).plan.actions) : kind = .relocate := by
  have hrow := (hspares.clears hname).stubRow hspares.row
  have hlive : r.merged.manifest.liveHash (stubRel path) = none := by
    rw [Manifest.liveHash, hspares.entry]
    rfl
  have hbase : Baseline.lastSynced (r.preserved w).state.files (stubRel path) = none := by
    rw [Baseline.lastSynced, hrow]
    rfl
  have hlocal : localHash (r.entries w) (stubRel path) = none := localHash_reserved
  have hdecided : ∀ kind, (planPath (r.entries w) (r.preserved w).state.files r.merged.manifest
      (r.view w) (stubRel path)).1 = some kind → kind = .relocate := by
    intro kind h
    simp only [planPath, hlocal, hrow, hbase, hlive, placeholderAction, classify] at h
    cases hview : (r.view w).placeholders[stubRel path]? with
    | none => simp [hview, decideAction] at h
    | some stub =>
        simp only [hview, Option.isSome_none, Bool.false_eq_true, if_false] at h
        by_cases hpath : stub.path = stubRel path
        · simp [hpath] at h
        · rw [if_pos hpath] at h
          cases hsource : r.merged.manifest[stub.path]? with
          | none => simp [hsource] at h
          | some source =>
              simp only [hsource] at h
              split_ifs at h
              exact (Option.some.inj h).symm
  simp only [passPlan, planFrom, mem_sortActions] at hmem
  rcases foldl_addRelocation_actions hmem with hkind | hplanned | ⟨-, hplanned⟩
  · exact hkind
  · exact hdecided _ (mem_reconcileWith.mp hplanned)
  · cases hdecided _ (mem_reconcileWith.mp hplanned)

end Round.LeavesAlone

end Planned

/-- What a `download` or a `hydrate` has done: the file is in place, and the placeholder of a
hydrated one may be gone. -/
structure Fetch where
  action : Action
  mtimeNs : ℤ
  unstubbed : Bool

def fetchOne (manifest : Manifest) (tree : LocalTree) (fetch : Fetch) : LocalTree :=
  match manifest[fetch.action.path]? with
  | none => tree
  | some entry =>
      match safeJoin entry.path with
      | none => tree
      | some durable =>
          let tree := tree.insert durable (fetchedFile entry fetch.mtimeNs).file
          if fetch.action.kind = .hydrate && fetch.unstubbed
          then tree.erase (stubRel fetch.action.path) else tree

def Round.fetched (r : Round) (w : World) (fetches : List Fetch) : LocalTree :=
  fetches.foldl (fetchOne (r.resumedManifest w)) (r.planned w).tree

/-- A pass whose transfers have put these files in place by the time it ends. -/
def World.passFetching (w : World) (r : Round) (fetches : List Fetch) : World :=
  if (preserveConflictLosers r.conflicts w.tree w.device).2 then
    let t := ((r.effects w).take r.reaches).foldl (World.run r.events.unix)
      { r.planned w with tree := r.fetched w fetches }
    if r.Completes w then
      { t with device := t.device.recordScan (r.passPlan w).scan.entries }
    else t
  else { w with device := (r.preserved w).state, tree := (r.preserved w).tree }

/-- The transfers are those of the plan, and what was joined as a download is in place. -/
structure Round.Transfers (r : Round) (w : World) (fetches : List Fetch) : Prop where
  fits : r.events.fits (r.passPlan w).plan (r.planned w).device = true
  planned : ∀ f ∈ fetches, f.action ∈ (r.passPlan w).plan.actions
  done : ∀ action d, (action, .downloaded d) ∈ r.events.joined → ∃ f ∈ fetches, ∃ entry,
    f.action = action ∧ f.mtimeNs = d.mtimeNs ∧ (action.kind = .hydrate → f.unstubbed = true) ∧
      (r.resumedManifest w)[action.path]? = some entry ∧ d.contentHash = entry.plaintextHash

section Fetching

variable {r : Round} {w : World} {path : String} {hash : ContentHash} {fetches : List Fetch}
  {tree : LocalTree}

namespace Round.LeavesAlone

theorem hash_eq {e : DeltaEntry} (hspares : r.LeavesAlone w path hash)
    (h : r.merged.manifest[path]? = some e) : e.plaintextHash = hash := by
  have hlive := hspares.live
  rw [Manifest.liveHash, h, Option.bind_some] at hlive
  split_ifs at hlive
  exact Option.some.inj hlive

theorem fetched_entry {e : DeltaEntry} (hspares : r.LeavesAlone w path hash)
    (hname : Mirrorable path) (h : (r.resumedManifest w)[path]? = some e) :
    e.path = path ∧ e.plaintextHash = hash := by
  rcases Round.resumedManifest_entry h with h | ⟨u, _, hu, hpath, -⟩
  · exact ⟨hspares.own e h, hspares.hash_eq h⟩
  · exact absurd (hpath ▸ hname.canonical) (hspares.resumed _ hu).1

theorem fetchOne_other {f : Fetch} (hspares : r.LeavesAlone w path hash) (hname : Mirrorable path)
    (hother : f.action.path ≠ path) :
    (fetchOne (r.resumedManifest w) tree f)[path]? = tree[path]? ∧
      (fetchOne (r.resumedManifest w) tree f)[stubRel path]? = tree[stubRel path]? := by
  cases hentry : (r.resumedManifest w)[f.action.path]? with
  | none => simp only [fetchOne, hentry, and_self]
  | some e =>
      cases hdurable : safeJoin e.path with
      | none => simp only [fetchOne, hentry, hdurable, and_self]
      | some durable =>
          have hnames : safeJoin e.path ≠ some path ∧ safeJoin e.path ≠ some (stubRel path) := by
            rcases Round.resumedManifest_entry hentry with h | ⟨u, _, hu, hpath, hsame⟩
            · exact hspares.others _ e h hother
            · rw [hsame, ← hpath]
              have hresumed := hspares.resumed _ hu
              exact hresumed
          have hfile : durable ≠ path := fun heq => hnames.1 (heq ▸ hdurable)
          have hstub : durable ≠ stubRel path := fun heq => hnames.2 (heq ▸ hdurable)
          have hne : stubRel f.action.path ≠ stubRel path := fun heq =>
            hother (stubRel_injective heq)
          simp only [fetchOne, hentry, hdurable]
          split_ifs
          · rw [StringMap.getElem?_erase, StringMap.getElem?_erase, if_neg hne,
              if_neg (hname.ne_stubRel _).symm, StringMap.getElem?_insert,
              StringMap.getElem?_insert, if_neg hfile, if_neg hstub]
            exact ⟨rfl, rfl⟩
          · rw [StringMap.getElem?_insert, StringMap.getElem?_insert, if_neg hfile, if_neg hstub]
            exact ⟨rfl, rfl⟩

theorem fetchAll_other (tree : LocalTree) (hspares : r.LeavesAlone w path hash)
    (hname : Mirrorable path) (hother : ∀ f ∈ fetches, f.action.path ≠ path) :
    (fetches.foldl (fetchOne (r.resumedManifest w)) tree)[path]? = tree[path]? ∧
      (fetches.foldl (fetchOne (r.resumedManifest w)) tree)[stubRel path]? =
        tree[stubRel path]? := by
  induction fetches generalizing tree with
  | nil => exact ⟨rfl, rfl⟩
  | cons f fetches ih =>
      obtain ⟨hfile, hstub⟩ : (fetchOne (r.resumedManifest w) tree f)[path]? = tree[path]? ∧
          (fetchOne (r.resumedManifest w) tree f)[stubRel path]? = tree[stubRel path]? :=
        hspares.fetchOne_other hname (hother f (List.mem_cons_self ..))
      obtain ⟨hfile', hstub'⟩ := ih (fetchOne (r.resumedManifest w) tree f) fun g hg =>
        hother g (List.mem_cons_of_mem _ hg)
      exact ⟨hfile'.trans hfile, hstub'.trans hstub⟩

theorem fetchOne_own {f : Fetch} {e : DeltaEntry} (hspares : r.LeavesAlone w path hash)
    (hname : Mirrorable path) (hown : f.action.path = path)
    (hentry : (r.resumedManifest w)[path]? = some e) :
    (fetchOne (r.resumedManifest w) tree f).HoldsReal path hash := by
  obtain ⟨hpath, hhash⟩ := hspares.fetched_entry hname hentry
  refine ⟨(fetchedFile e f.mtimeNs).file, ?_, rfl, hhash⟩
  simp only [fetchOne, hown, hentry, hpath, hname.canonical]
  split_ifs
  · rw [StringMap.getElem?_erase, if_neg (stubRel_ne path), StringMap.getElem?_insert, if_pos rfl]
  · rw [StringMap.getElem?_insert, if_pos rfl]

theorem fetchOne_real {f : Fetch} (hspares : r.LeavesAlone w path hash) (hname : Mirrorable path)
    (hreal : tree.HoldsReal path hash) :
    (fetchOne (r.resumedManifest w) tree f).HoldsReal path hash := by
  by_cases hown : f.action.path = path
  · cases hentry : (r.resumedManifest w)[path]? with
    | none =>
        simp only [fetchOne, hown, hentry]
        exact hreal
    | some e => exact hspares.fetchOne_own hname hown hentry
  · obtain ⟨file, hfile, hsame⟩ := hreal
    exact ⟨file, (hspares.fetchOne_other hname hown).1.trans hfile, hsame⟩

theorem fetchAll_real (hspares : r.LeavesAlone w path hash) (hname : Mirrorable path)
    (hreal : tree.HoldsReal path hash) :
    (fetches.foldl (fetchOne (r.resumedManifest w)) tree).HoldsReal path hash := by
  induction fetches generalizing tree with
  | nil => exact hreal
  | cons f fetches ih => exact ih (hspares.fetchOne_real hname hreal)

theorem fetchAll_stub (hspares : r.LeavesAlone w path hash) (hname : Mirrorable path)
    (hstub : tree.HoldsStub path hash) :
    (fetches.foldl (fetchOne (r.resumedManifest w)) tree).HoldsReal path hash ∨
      (fetches.foldl (fetchOne (r.resumedManifest w)) tree).HoldsStub path hash := by
  induction fetches generalizing tree with
  | nil => exact .inr hstub
  | cons f fetches ih =>
      rw [List.foldl_cons]
      by_cases hown : f.action.path = path
      · cases hentry : (r.resumedManifest w)[path]? with
        | none =>
            refine ih ?_
            simp only [fetchOne, hown, hentry]
            exact hstub
        | some e => exact .inl (hspares.fetchAll_real hname (hspares.fetchOne_own hname hown hentry))
      · have hframe : (fetchOne (r.resumedManifest w) tree f)[path]? = tree[path]? ∧
            (fetchOne (r.resumedManifest w) tree f)[stubRel path]? = tree[stubRel path]? :=
          hspares.fetchOne_other hname hown
        obtain ⟨hfile, hplaceholder⟩ := hframe
        obtain ⟨habsent, file, stub, hfound, hsame⟩ := hstub
        exact ih ⟨hfile.trans habsent, file, stub, hplaceholder.trans hfound, hsame⟩

theorem fetchAll_own {f : Fetch} {e : DeltaEntry} (hspares : r.LeavesAlone w path hash)
    (hname : Mirrorable path) (hf : f ∈ fetches) (hown : f.action.path = path)
    (hentry : (r.resumedManifest w)[path]? = some e) :
    (fetches.foldl (fetchOne (r.resumedManifest w)) tree).HoldsReal path hash := by
  induction fetches generalizing tree with
  | nil => cases hf
  | cons g fetches ih =>
      rw [List.foldl_cons]
      rcases List.mem_cons.mp hf with rfl | hf
      · exact hspares.fetchAll_real hname (hspares.fetchOne_own hname hown hentry)
      · exact ih hf

end Round.LeavesAlone

end Fetching

section CopyNames

theorem mem_slashed {parts : List (List Char)} {c : Char} (hc : c ≠ '/') :
    c ∈ slashed parts ↔ ∃ part ∈ parts, c ∈ part := by
  unfold slashed
  induction parts with
  | nil => simp
  | cons part parts ih =>
      cases parts with
      | nil => simp
      | cons next parts =>
          rw [List.intercalate_cons_cons]
          simp only [List.mem_append, List.mem_singleton, hc, or_false, ih, List.exists_mem_cons_iff]

theorem safeJoin_mem {path file : String} {c : Char} (hslash : c ≠ '/') (hdot : c ≠ '.')
    (h : safeJoin path = some file) (hc : c ∈ path.toList) : c ∈ file.toList := by
  obtain ⟨parts, hparts, rfl⟩ := Option.map_eq_some_iff.mp h
  unfold normalComponents at hparts
  simp only at hparts
  split_ifs at hparts
  cases hparts
  rw [String.toList_ofList, mem_slashed hslash]
  have hwhole : c ∈ slashed (path.toList.splitOn '/') := by
    rw [slashed, List.intercalate_splitOn]
    exact hc
  obtain ⟨part, hpart, hmem⟩ := (mem_slashed hslash).mp hwhole
  refine ⟨part, List.mem_filter.mpr ⟨hpart, ?_⟩, hmem⟩
  rw [decide_eq_true_eq]
  constructor
  · rintro rfl
    cases hmem
  · rintro rfl
    exact hdot (List.mem_singleton.mp hmem)

theorem copyPath_mem (timestamp deviceName path : String) :
    '(' ∈ (copyPath timestamp deviceName path).toList := by
  have hstem : ∀ stem, '(' ∈ conflictStem stem timestamp deviceName := by
    intro stem
    unfold conflictStem
    split_ifs
    · cases trailingCounter stem with
      | none => simp
      | some counted => simp
    · have hmark : '(' ∈ conflictedMark := by decide +kernel
      simp only [List.mem_append, hmark, or_true, true_or]
  have hname : '(' ∈ (conflictName path timestamp deviceName).toList := by
    unfold conflictName
    dsimp only
    generalize (rsplitOnce '/' path.toList).elim path.toList Prod.snd = whole
    cases rsplitOnce '.' whole with
    | none =>
        rw [String.toList_ofList]
        exact hstem _
    | some parts =>
        rw [String.toList_ofList, List.mem_append]
        exact .inl (hstem _)
  have hreplaced : ∀ name : String, '(' ∈ name.toList → '(' ∈ (replaceName path name).toList := by
    intro name hmem
    unfold replaceName
    cases rsplitOnce '/' path.toList with
    | none => exact hmem
    | some parts =>
        rw [String.toList_ofList, List.mem_append]
        exact .inr (List.mem_cons_of_mem _ hmem)
  exact hreplaced _ hname

theorem copyPath_names {timestamp deviceName path file : String} (h : '(' ∉ file.toList) :
    safeJoin (copyPath timestamp deviceName path) ≠ some file := fun hnames =>
  h (safeJoin_mem (by decide) (by decide) hnames (copyPath_mem ..))
end CopyNames

end FileMirror
