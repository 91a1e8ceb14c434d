import FileMirror.MovedPlaceholders

set_option autoImplicit false

namespace FileMirror

/-- What brings bytes or the placeholder of a version. -/
def ActionKind.transfers : ActionKind → Bool
  | .download | .hydrate | .relocate | .upload | .createPlaceholder | .updatePlaceholder => true
  | _ => false

def ActionKind.deletes : ActionKind → Bool
  | .deleteLocal | .deleteRemote => true
  | _ => false

section Order

variable {entries : List LocalEntry} {baseline : Baseline} {remote : Manifest}
  {view : ResidencyView} {actions : List Action}

theorem ctorIdx_inj {a b : ActionKind} (h : a.ctorIdx = b.ctorIdx) : a = b := by
  cases a <;> cases b <;> first | rfl | cases h

instance : Std.Total Action.before where
  total a b := by
    unfold Action.before
    rcases Nat.lt_trichotomy a.kind.ctorIdx b.kind.ctorIdx with h | h | h
    · exact .inl (.inl h)
    · have hkind := ctorIdx_inj h
      rcases le_total a.path b.path with hpath | hpath
      · exact .inl (.inr ⟨hkind, hpath⟩)
      · exact .inr (.inr ⟨hkind.symm, hpath⟩)
    · exact .inr (.inl h)

instance : IsTrans Action Action.before where
  trans a b c hab hbc := by
    unfold Action.before at *
    rcases hab with hab | ⟨hab, hpath⟩
    · rcases hbc with hbc | ⟨hbc, _⟩
      · exact .inl (hab.trans hbc)
      · exact .inl (hbc ▸ hab)
    · rcases hbc with hbc | ⟨hbc, hpath'⟩
      · exact .inl (hab ▸ hbc)
      · exact .inr ⟨hab.trans hbc, hpath.trans hpath'⟩

theorem sortActions_pairwise : (sortActions actions).Pairwise Action.before :=
  List.pairwise_insertionSort Action.before actions

theorem Action.before.not_late {a b : Action} (h : a.before b) (hdeletes : a.kind.deletes = true) :
    b.kind.transfers = false := by
  unfold Action.before at h
  rcases h with h | ⟨h, _⟩
  · revert h hdeletes
    cases a.kind <;> cases b.kind <;> decide
  · rw [← h]
    revert hdeletes
    cases a.kind <;> decide

theorem actions_nodup : ((reconcileWith entries baseline remote view).actions.map
    Action.path).Nodup := by
  have hpaths : (reconcilePaths entries baseline remote view).Nodup :=
    (List.perm_insertionSort _ _).nodup_iff.mpr (List.nodup_dedup _)
  have hsorted := List.perm_insertionSort Action.before
    ((reconcilePaths entries baseline remote view).filterMap fun path =>
      (planPath entries baseline remote view path).1.map fun kind => (⟨path, kind⟩ : Action))
  apply (hsorted.map Action.path).nodup_iff.mpr
  refine List.Nodup.sublist ?_ hpaths
  generalize reconcilePaths entries baseline remote view = paths
  induction paths with
  | nil => exact .slnil
  | cons path paths ih =>
      cases hkind : (planPath entries baseline remote view path).1 with
      | none =>
          rw [List.filterMap_cons_none (by rw [hkind]; rfl)]
          exact ih.cons path
      | some kind =>
          rw [List.filterMap_cons_some (by rw [hkind]; rfl)]
          exact ih.cons_cons path

end Order

section Conditions

variable {entries : List LocalEntry} {baseline : Baseline} {remote : Manifest}
  {view : ResidencyView} {path : String} {hash : ContentHash}

theorem localHash_of_mem {e : LocalEntry} (hdistinct : (entries.map LocalEntry.path).Nodup)
    (he : e ∈ entries) (hpath : e.path = path) : localHash entries path = some e.hash := by
  apply localHash_eq_some ⟨e, he, hpath⟩
  intro other hother hsame
  rw [List.inj_on_of_nodup_map hdistinct hother he (hsame.trans hpath.symm)]

theorem decideAction_presumes {here there : Change} {localHash remoteHash : Option ContentHash}
    {kind : ActionKind} (h : decideAction here there localHash remoteHash = some kind) :
    (kind = .download → here = .unchanged) ∧ (kind = .deleteRemote → there = .unchanged) ∧
      (kind = .deleteLocal → there = .deleted) ∧ kind ≠ .hydrate := by
  cases here <;> cases there <;> simp only [decideAction] at h <;> try split_ifs at h
  all_goals cases h <;> simp

theorem planPath_absent_cases {kind : ActionKind} (hlocal : localHash entries path = none)
    (h : (planPath entries baseline remote view path).1 = some kind) :
    (∃ stub, (placeholderAction path stub baseline[path]?
        (classify (remote.liveHash path) (baseline.lastSynced path)) remote view).1 = some kind) ∨
      kind = .deleteRemote ∧ remote.liveHash path = baseline.lastSynced path ∨ kind = .hydrate ∨
      kind = .deleteLocal ∧ remote.liveHash path = none ∨ kind = .createPlaceholder ∨
      decideAction (classify none (baseline.lastSynced path))
        (classify (remote.liveHash path) (baseline.lastSynced path)) none (remote.liveHash path) =
          some kind := by
  unfold planPath at h
  simp only [hlocal, Option.isSome_none, Bool.false_eq_true, if_false] at h
  cases hstub : view.placeholders[path]? with
  | some stub =>
      rw [hstub] at h
      exact .inl ⟨stub, h⟩
  | none =>
      simp only [hstub] at h
      by_cases hevicted : baseline[path]?.any FileRecord.isEvicted = true
      · rw [if_pos hevicted] at h
        cases hthere : classify (remote.liveHash path) (baseline.lastSynced path) with
        | unchanged =>
            rw [hthere] at h
            cases h
            exact .inr (.inl ⟨rfl, classify_eq_unchanged.mp hthere⟩)
        | deleted =>
            rw [hthere] at h
            cases h
            exact .inr (.inr (.inr (.inl ⟨rfl, (classify_eq_deleted.mp hthere).1⟩)))
        | created | modified =>
            rw [hthere] at h
            cases h
            exact .inr (.inr (.inl rfl))
      · rw [if_neg hevicted] at h
        split at h
        · split_ifs at h
          · cases h
            exact .inr (.inr (.inr (.inr (.inl rfl))))
          · cases h
            rename_i hdecided _
            exact .inr (.inr (.inr (.inr (.inr hdecided))))
        · exact .inr (.inr (.inr (.inr (.inr h))))

theorem placeholderAction_deleteLocal {stub : StubMeta} {record : Option FileRecord} {there : Change}
    (h : (placeholderAction path stub record there remote view).1 = some .deleteLocal) :
    there = .deleted := by
  unfold placeholderAction at h
  by_cases hmoved : stub.path = path
  · simp only [hmoved, ne_eq, not_true_eq_false, if_false] at h
    cases there with
    | deleted => rfl
    | unchanged | created | modified =>
        cases hsynced : record.bind FileRecord.lastSyncedHash with
        | none =>
            rw [hsynced] at h
            by_cases hlocal : view.wantsLocal path = true <;> simp_all
        | some synced =>
            rw [hsynced] at h
            by_cases hlocal : view.wantsLocal path = true <;> simp_all
  · simp only [hmoved, ne_eq, not_false_eq_true, if_true] at h
    cases hsource : remote[stub.path]? with
    | none =>
        rw [hsource] at h
        cases h
    | some source =>
        simp only [hsource] at h
        split_ifs at h
        cases h

theorem planPath_deleteLocal
    (h : (planPath entries baseline remote view path).1 = some .deleteLocal) :
    remote.liveHash path = none ∧
      ∀ hash, localHash entries path = some hash → baseline.lastSynced path = some hash := by
  cases hlocal : localHash entries path with
  | some hash =>
      obtain ⟨hbase, hgone⟩ := (planPath_local_deleteLocal hlocal).mp h
      refine ⟨hgone, fun found hfound => ?_⟩
      cases hfound
      exact hbase
  | none =>
      refine ⟨?_, nofun⟩
      obtain ⟨stub, hstub⟩ | ⟨hkind, _⟩ | hkind | ⟨_, hgone⟩ | hkind | hdecided :=
        planPath_absent_cases hlocal h
      · exact (classify_eq_deleted.mp (placeholderAction_deleteLocal hstub)).1
      · cases hkind
      · cases hkind
      · exact hgone
      · cases hkind
      · exact (classify_eq_deleted.mp ((decideAction_presumes hdecided).2.2.1 rfl)).1

theorem planPath_deleteRemote
    (h : (planPath entries baseline remote view path).1 = some .deleteRemote) :
    localHash entries path = none ∧ remote.liveHash path = baseline.lastSynced path := by
  cases hlocal : localHash entries path with
  | some hash =>
      obtain ⟨hkind, _⟩ | hkind | ⟨hkind, _⟩ | hkind := planPath_local_kinds hlocal h
      · cases hkind
      · cases hkind
      · cases hkind
      · cases hkind
  | none =>
      refine ⟨rfl, ?_⟩
      obtain ⟨stub, hstub⟩ | ⟨_, hsame⟩ | hkind | ⟨hkind, _⟩ | hkind | hdecided :=
        planPath_absent_cases hlocal h
      · obtain hkind | hkind | ⟨hkind | hkind, _⟩ := placeholderAction_kinds hstub
        · cases hkind
        · cases hkind
        · cases hkind
        · cases hkind
      · exact hsame
      · cases hkind
      · cases hkind
      · cases hkind
      · exact classify_eq_unchanged.mp ((decideAction_presumes hdecided).2.1 rfl)

theorem planPath_fetch {kind : ActionKind} (hkind : kind = .download ∨ kind = .hydrate)
    (h : (planPath entries baseline remote view path).1 = some kind)
    (hlocal : localHash entries path = some hash) : baseline.lastSynced path = some hash := by
  rw [planPath_local hlocal] at h
  obtain ⟨hdownload, _, _, hhydrate⟩ := decideAction_presumes h
  have hunchanged := hdownload (hkind.resolve_right hhydrate)
  exact (classify_eq_unchanged.mp hunchanged).symm

theorem planPath_real {baseline' : Baseline} {view' : ResidencyView}
    (hlocal : localHash entries path = some hash)
    (hbase : baseline'.lastSynced path = baseline.lastSynced path) :
    planPath entries baseline' remote view' path = planPath entries baseline remote view path := by
  have hsome : (localHash entries path).isSome = true := by
    rw [hlocal]
    rfl
  unfold planPath
  dsimp only
  rw [if_pos hsome, if_pos hsome, hbase]

theorem planPath_settled (hhere : localHash entries path = baseline.lastSynced path)
    (hthere : remote.liveHash path = baseline.lastSynced path)
    (hstub : view.placeholders[path]? = none)
    (hrow : baseline[path]?.any FileRecord.isEvicted = false) :
    (planPath entries baseline remote view path).1 = none := by
  have hunchanged : ∀ base, classify base base = .unchanged := fun base =>
    classify_eq_unchanged.mpr rfl
  cases hlocal : localHash entries path with
  | some hash =>
      rw [planPath_local hlocal, hthere, ← hhere, hlocal, hunchanged]
      rfl
  | none =>
      rw [hlocal] at hhere
      unfold planPath
      simp only [hlocal, hstub, hrow, hthere, ← hhere, Option.isSome_none, Bool.false_eq_true,
        if_false]
      rfl

end Conditions

/-- What `reconcile_with` plans, for all paths at once. -/
theorem reconcile_law (entries : List LocalEntry) (baseline : Baseline) (remote : Manifest)
    (view : ResidencyView) (hdistinct : (entries.map LocalEntry.path).Nodup) :
    ((reconcileWith entries baseline remote view).actions.map Action.path).Nodup ∧
    (reconcileWith entries baseline remote view).actions.Pairwise Action.before ∧
    (reconcileWith entries baseline remote view).actions.Pairwise
      (fun a b => a.kind.deletes = true → b.kind.transfers = false) ∧
    ∀ path,
      (localHash entries path = baseline.lastSynced path →
        remote.liveHash path = baseline.lastSynced path → view.placeholders[path]? = none →
        baseline[path]?.any FileRecord.isEvicted = false →
          ∀ kind, ⟨path, kind⟩ ∉ (reconcileWith entries baseline remote view).actions) ∧
      (⟨path, .deleteLocal⟩ ∈ (reconcileWith entries baseline remote view).actions →
        (∀ e ∈ entries, e.path = path → baseline.lastSynced path = some e.hash) ∧
          remote.liveHash path = none) ∧
      (⟨path, .deleteRemote⟩ ∈ (reconcileWith entries baseline remote view).actions →
        (∀ e ∈ entries, e.path ≠ path) ∧ remote.liveHash path = baseline.lastSynced path) ∧
      (∀ kind, kind = .download ∨ kind = .hydrate →
        ⟨path, kind⟩ ∈ (reconcileWith entries baseline remote view).actions →
          ∀ e ∈ entries, e.path = path → baseline.lastSynced path = some e.hash) ∧
      (⟨path, .upload⟩ ∈ (reconcileWith entries baseline remote view).actions →
        remote.liveHash path = baseline.lastSynced path) ∧
      ((∃ e ∈ entries, e.path = path) →
        (reconcileWith entries baseline remote view).relocations[path]? = none ∧
        ∀ (baseline' : Baseline) (view' : ResidencyView),
          baseline'.lastSynced path = baseline.lastSynced path →
            ∀ kind, ⟨path, kind⟩ ∈ (reconcileWith entries baseline remote view).actions ↔
              ⟨path, kind⟩ ∈ (reconcileWith entries baseline' remote view').actions) := by
  refine ⟨actions_nodup, sortActions_pairwise, sortActions_pairwise.imp fun h => h.not_late,
    fun path => ⟨?_, ?_, ?_, ?_, ?_, ?_⟩⟩
  · intro hhere hthere hstub hrow kind hmem
    rw [mem_reconcileWith, planPath_settled hhere hthere hstub hrow] at hmem
    cases hmem
  · intro hmem
    obtain ⟨hgone, hsynced⟩ := planPath_deleteLocal (mem_reconcileWith.mp hmem)
    exact ⟨fun e he hpath => hsynced e.hash (localHash_of_mem hdistinct he hpath), hgone⟩
  · intro hmem
    obtain ⟨hnone, hsame⟩ := planPath_deleteRemote (mem_reconcileWith.mp hmem)
    exact ⟨localHash_eq_none.mp hnone, hsame⟩
  · intro kind hkind hmem e he hpath
    exact planPath_fetch hkind (mem_reconcileWith.mp hmem) (localHash_of_mem hdistinct he hpath)
  · intro hmem
    obtain ⟨_, _, hremote, _⟩ := planPath_upload_iff.mp (mem_reconcileWith.mp hmem)
    exact hremote
  · rintro ⟨e, he, hpath⟩
    have hlocal := localHash_of_mem hdistinct he hpath
    refine ⟨?_, fun baseline' view' hbase kind => ?_⟩
    · have hsome : (localHash entries path).isSome = true := by
        rw [hlocal]
        rfl
      rw [reconcileWith_relocations]
      exact (planPath_unmoved baseline remote (.inl hsome)).1
    · rw [mem_reconcileWith, mem_reconcileWith, planPath_real hlocal hbase]

/-- `a` is new here and `d` there, `b` was deleted there and `c` here, `e` is as it was, and `f` was
edited on both sides. -/
def mixedEntries : List LocalEntry := [⟨"a", 1, 0, 1⟩, ⟨"b", 1, 0, 2⟩, ⟨"e", 1, 0, 5⟩, ⟨"f", 1, 0, 6⟩]

def mixedBaseline : Baseline :=
  [("b", 2), ("c", 3), ("e", 5), ("f", 7)].foldl
    (fun rows row => rows.insert row.1 (.synced row.1 1 row.2)) ∅

def mixedRemote : Manifest :=
  [("c", 3), ("d", 4), ("e", 5), ("f", 8)].foldl
    (fun m version => m.insert version.1 (.sample version.1 "tablet" 1 version.2 none)) ∅

def mixedPlan : Plan := reconcile mixedEntries mixedBaseline mixedRemote

theorem reconcile_law_mixed : mixedPlan.actions.Pairwise Action.before ∧
    (⟨"b", .deleteLocal⟩ ∈ mixedPlan.actions ∧ mixedRemote.liveHash "b" = none) ∧
    (⟨"c", .deleteRemote⟩ ∈ mixedPlan.actions ∧ ∀ e ∈ mixedEntries, e.path ≠ "c") ∧
    ∀ kind, ⟨"e", kind⟩ ∉ mixedPlan.actions := by
  obtain ⟨-, hsorted, -, hpaths⟩ := reconcile_law mixedEntries mixedBaseline mixedRemote
    ⟨∅, ⟨[], [], false⟩, []⟩ (by decide)
  have hlocal : ⟨"b", .deleteLocal⟩ ∈ mixedPlan.actions := by decide +kernel
  have hremote : ⟨"c", .deleteRemote⟩ ∈ mixedPlan.actions := by decide +kernel
  exact ⟨hsorted, ⟨hlocal, ((hpaths "b").2.1 hlocal).2⟩, ⟨hremote, ((hpaths "c").2.2.1 hremote).1⟩,
    (hpaths "e").1 (by decide +kernel) (by decide +kernel) (by decide +kernel) (by decide +kernel)⟩

end FileMirror
