import FileMirror.BaseHashes
import FileMirror.LogAfterPass
import FileMirror.Recreation

set_option autoImplicit false

namespace FileMirror

open WriteAhead

section Planned

variable {entries : List LocalEntry} {baseline : Baseline} {remote : Manifest}
  {view : ResidencyView} {path : String}

/-- The version that a moved placeholder at `path` stands for, where no file does. -/
def movedFrom (entries : List LocalEntry) (placeholders : StringMap StubMeta) (remote : Manifest)
    (path : String) : Option DeltaEntry :=
  if (localHash entries path).isSome then none
  else
    match placeholders[path]? with
    | none => none
    | some stub =>
        if stub.path = path then none else remote[stub.path]?.filter fun source => !source.deleted

theorem placeholderAction_relocation (path : String) (stub : StubMeta) (record : Option FileRecord)
    (there : Change) (remote : Manifest) (view : ResidencyView) :
    (placeholderAction path stub record there remote view).2 =
      (if stub.path = path then none
        else remote[stub.path]?.filter fun source => !source.deleted) ∧
      ((placeholderAction path stub record there remote view).1 = some .relocate ↔
        (placeholderAction path stub record there remote view).2.isSome) := by
  unfold placeholderAction
  by_cases hmoved : stub.path = path
  · simp only [hmoved, ne_eq, not_true_eq_false, if_false, if_true, Option.isSome_none,
      Bool.false_eq_true, iff_false, true_and]
    split <;> try split_ifs
    all_goals simp
  · simp only [ne_eq, hmoved, not_false_eq_true, if_true, if_false]
    cases remote[stub.path]? with
    | none => simp
    | some source => by_cases hdeleted : source.deleted = true <;> simp [hdeleted, Option.filter]

theorem decideAction_ne_relocate (here there : Change) (localHash remoteHash : Option ContentHash) :
    decideAction here there localHash remoteHash ≠ some .relocate := by
  cases here <;> cases there <;> simp only [decideAction] <;> try split_ifs
  all_goals simp

theorem planPath_unmoved (baseline : Baseline) (remote : Manifest)
    (h : (localHash entries path).isSome ∨ view.placeholders[path]? = none) :
    (planPath entries baseline remote view path).2 = none ∧
      (planPath entries baseline remote view path).1 ≠ some .relocate := by
  unfold planPath
  dsimp only
  by_cases hlocal : (localHash entries path).isSome = true
  · rw [if_pos hlocal]
    exact ⟨rfl, decideAction_ne_relocate _ _ _ _⟩
  · rw [if_neg hlocal, h.resolve_left hlocal]
    dsimp only
    by_cases hevicted : baseline[path]?.any FileRecord.isEvicted = true
    · rw [if_pos hevicted]
      split <;> simp
    · rw [if_neg hevicted]
      split
      · split_ifs <;> simp
      · exact ⟨rfl, decideAction_ne_relocate _ _ _ _⟩

theorem planPath_relocation : (planPath entries baseline remote view path).2 =
      movedFrom entries view.placeholders remote path ∧
    ((planPath entries baseline remote view path).1 = some .relocate ↔
      (planPath entries baseline remote view path).2.isSome) := by
  by_cases hlocal : (localHash entries path).isSome = true
  · obtain ⟨hnone, hkind⟩ : (planPath entries baseline remote view path).2 = none ∧
        (planPath entries baseline remote view path).1 ≠ some .relocate :=
      planPath_unmoved baseline remote (.inl hlocal)
    simp [hnone, hkind, movedFrom, hlocal]
  · cases hstub : view.placeholders[path]? with
    | none =>
        obtain ⟨hnone, hkind⟩ : (planPath entries baseline remote view path).2 = none ∧
            (planPath entries baseline remote view path).1 ≠ some .relocate :=
          planPath_unmoved baseline remote (.inr hstub)
        simp [hnone, hkind, movedFrom, hlocal, hstub]
    | some stub =>
        have hplanned : planPath entries baseline remote view path = placeholderAction path stub
            baseline[path]? (classify (remote.liveHash path) (baseline.lastSynced path)) remote
            view := by
          simp [planPath, hlocal, hstub]
        rw [hplanned]
        obtain ⟨hsource, hkind⟩ := placeholderAction_relocation path stub baseline[path]?
          (classify (remote.liveHash path) (baseline.lastSynced path)) remote view
        refine ⟨?_, hkind⟩
        rw [hsource, movedFrom, if_neg hlocal, hstub]

theorem planPath_upload_iff : (planPath entries baseline remote view path).1 = some .upload ↔
    ∃ hash, localHash entries path = some hash ∧
      remote.liveHash path = baseline.lastSynced path ∧ baseline.lastSynced path ≠ some hash := by
  constructor
  · intro h
    obtain ⟨hash, hlocal⟩ := planPath_upload h
    refine ⟨hash, hlocal, ?_⟩
    rcases planPath_local_kinds hlocal h with ⟨hkind, -⟩ | hkind | ⟨-, hremote⟩ | hkind
    · cases hkind
    · cases hkind
    · refine ⟨hremote, fun hbase => ?_⟩
      rw [planPath_local hlocal, hremote, hbase] at h
      simp [classify, decideAction] at h
    · cases hkind
  · rintro ⟨hash, hlocal, hremote, hbase⟩
    rw [planPath_local hlocal, classify_eq_unchanged.mpr hremote]
    cases hsynced : baseline.lastSynced path with
    | none => rfl
    | some synced =>
        have hne : hash ≠ synced := by
          rintro rfl
          exact hbase hsynced
        simp [classify, hne, decideAction]

theorem placeholderAction_kinds {stub : StubMeta} {record : Option FileRecord} {there : Change}
    {kind : ActionKind} (h : (placeholderAction path stub record there remote view).1 = some kind) :
    kind = .relocate ∨ kind = .deleteLocal ∨ (kind = .hydrate ∨ kind = .updatePlaceholder) ∧
      (there = .created ∨ there = .modified ∨
        there = .unchanged ∧ record.bind FileRecord.lastSyncedHash ≠ none) := by
  unfold placeholderAction at h
  by_cases hmoved : stub.path = path
  · simp only [hmoved, ne_eq, not_true_eq_false, if_false] at h
    cases hsynced : record.bind FileRecord.lastSyncedHash with
    | none =>
        rw [hsynced] at h
        cases there <;> by_cases hlocal : view.wantsLocal path = true <;> simp_all
    | some synced =>
        rw [hsynced] at h
        cases there <;> by_cases hlocal : view.wantsLocal path = true <;> simp_all
  · simp only [ne_eq, hmoved, not_false_eq_true, if_true] at h
    split at h
    · cases h
    · split_ifs at h
      cases h
      exact .inl rfl

theorem planPath_deleteRemote_iff {hash : ContentHash} (hlive : remote.liveHash path = some hash) :
    (planPath entries baseline remote view path).1 = some .deleteRemote ↔
      localHash entries path = none ∧ view.placeholders[path]? = none ∧
        baseline.lastSynced path = some hash := by
  cases hlocal : localHash entries path with
  | some found =>
      simp only [reduceCtorEq, false_and, iff_false]
      intro h
      rcases planPath_local_kinds hlocal h with ⟨hkind, -⟩ | hkind | ⟨hkind, -⟩ | hkind <;>
        cases hkind
  | none =>
      cases hstub : view.placeholders[path]? with
      | some stub =>
          simp only [reduceCtorEq, false_and, and_false, iff_false]
          intro h
          simp only [planPath, hlocal, hstub, Option.isSome_none, Bool.false_eq_true,
            if_false] at h
          rcases placeholderAction_kinds h with hkind | hkind | ⟨hkind | hkind, -⟩ <;> cases hkind
      | none =>
          simp only [planPath, hlocal, hstub, hlive, Option.isSome_none, Bool.false_eq_true,
            if_false, true_and]
          cases hbase : baseline.lastSynced path with
          | none =>
              by_cases honline : view.policy.arrivesOnlineOnly path = true <;>
                by_cases hevicted : baseline[path]?.any FileRecord.isEvicted = true <;>
                  simp [classify, decideAction, honline, hevicted]
          | some synced =>
              by_cases hsame : hash = synced
              · by_cases hevicted : baseline[path]?.any FileRecord.isEvicted = true <;>
                  simp [classify, decideAction, hevicted, hsame]
              · by_cases hevicted : baseline[path]?.any FileRecord.isEvicted = true <;>
                  simp [classify, decideAction, hevicted, hsame, Ne.symm hsame]

theorem planPath_placeholder_live {kind : ActionKind}
    (h : (planPath entries baseline remote view path).1 = some kind)
    (hkind : kind = .createPlaceholder ∨ kind = .updatePlaceholder ∨ kind = .hydrate) :
    remote.liveHash path ≠ none := by
  cases hlocal : localHash entries path with
  | some found =>
      rcases planPath_local_kinds hlocal h with ⟨rfl, -⟩ | rfl | ⟨rfl, -⟩ | rfl <;> simp at hkind
  | none =>
      intro hgone
      cases hstub : view.placeholders[path]? with
      | some stub =>
          simp only [planPath, hlocal, hstub, hgone, Option.isSome_none, Bool.false_eq_true,
            if_false] at h
          rcases placeholderAction_kinds h with rfl | rfl | ⟨-, hthere | hthere | ⟨hthere, hbase⟩⟩
          · simp at hkind
          · simp at hkind
          · cases hsynced : baseline.lastSynced path <;> simp [hsynced, classify] at hthere
          · cases hsynced : baseline.lastSynced path <;> simp [hsynced, classify] at hthere
          · exact hbase (classify_eq_unchanged.mp hthere).symm
      | none =>
          simp only [planPath, hlocal, hstub, hgone, Option.isSome_none, Bool.false_eq_true,
            if_false] at h
          cases hbase : baseline.lastSynced path with
          | none =>
              by_cases hevicted : baseline[path]?.any FileRecord.isEvicted = true
              · simp [hbase, classify, hevicted] at h
                simp [← h] at hkind
              · simp [hbase, classify, hevicted, decideAction] at h
          | some synced =>
              by_cases hevicted : baseline[path]?.any FileRecord.isEvicted = true
              · simp [hbase, classify, hevicted] at h
                simp [← h] at hkind
              · simp [hbase, classify, hevicted, decideAction] at h

end Planned

section Relocations

variable {plan : Plan} {relocations : List (String × DeltaEntry)} {path : String}

theorem foldl_addRelocation_source :
    (relocations.foldl addRelocation plan).relocations[path]? =
      ((relocations.reverse.find? fun r => r.1 = path).map Prod.snd).or plan.relocations[path]? := by
  induction relocations generalizing plan with
  | nil => simp
  | cons r relocations ih =>
      rw [List.foldl_cons, ih, List.reverse_cons, List.find?_append]
      cases hlater : relocations.reverse.find? fun r => r.1 = path with
      | some later => simp
      | none =>
          simp only [addRelocation, StringMap.getElem?_insert]
          by_cases hpath : r.1 = path <;> simp [hpath]

theorem foldl_addRelocation_relocate :
    ⟨path, .relocate⟩ ∈ (relocations.foldl addRelocation plan).actions ↔
      ⟨path, .relocate⟩ ∈ plan.actions ∨ ∃ r ∈ relocations, r.1 = path := by
  induction relocations generalizing plan with
  | nil => simp
  | cons r relocations ih =>
      have hadd : ⟨path, .relocate⟩ ∈ (addRelocation plan r).actions ↔
          ⟨path, .relocate⟩ ∈ plan.actions ∨ r.1 = path := by
        simp only [addRelocation, List.mem_append, List.mem_map, List.mem_singleton,
          Action.mk.injEq, and_true, eq_comm (a := path)]
        refine or_congr_left ⟨?_, fun hmem => ⟨_, hmem, by simp⟩⟩
        rintro ⟨action, hmem, haction⟩
        split_ifs at haction
        · cases haction
        · rwa [haction] at hmem
      rw [List.foldl_cons, ih, hadd, List.exists_mem_cons_iff, or_assoc]

theorem reconcileWith_relocations {entries : List LocalEntry} {baseline : Baseline}
    {remote : Manifest} {view : ResidencyView} :
    (reconcileWith entries baseline remote view).relocations[path]? =
      (planPath entries baseline remote view path).2 := by
  let planned := fun path => (planPath entries baseline remote view path).2
  have hfold : ∀ (paths : List String) (m : StringMap DeltaEntry),
      (paths.foldl (fun m path => (planned path).elim m fun source => m.insert path source) m)[path]?
        = if path ∈ paths then (planned path).or m[path]? else m[path]? := by
    intro paths
    induction paths with
    | nil => simp
    | cons p paths ih =>
        intro m
        rw [List.foldl_cons, ih]
        by_cases hp : p = path
        · subst hp
          cases planned p <;> simp
        · cases planned p <;> simp [StringMap.getElem?_insert, hp, Ne.symm hp]
  rw [reconcileWith]
  refine (hfold _ ∅).trans ?_
  split_ifs with hmem
  · simp [planned]
  · rw [planPath_unknown hmem]
    rfl

end Relocations

namespace Round

/-- The same pass with other outcomes of its transfers. -/
def joining (r : Round) (joined : List (Action × Outcome)) : Round :=
  { r with events := { r.events with joined } }

def resumption (r : Round) (w : World) : List Effect × Option (Manifest × List String) :=
  resumeUploads (r.passPlan w).manifest (r.events.clock (r.planned w).device
    (nextLamport (r.passPlan w).remoteLamport (r.planned w).device.lamport)) r.events.uploads

/-- The manifest that `resume_uploads` hands to `apply`. -/
def resumedManifest (r : Round) (w : World) : Manifest :=
  (r.resumption w).2.elim r.merged.manifest Prod.fst

def resumedPaths (r : Round) (w : World) : List String := (r.resumption w).2.elim [] Prod.snd

/-- The plan that `apply` gets. -/
def resumedPlan (r : Round) (w : World) : Plan :=
  dropResumed (r.passPlan w).plan (r.resumedPaths w)

/-- The entries that a reader of the log finds after the pass. -/
def left (r : Round) (w : World) : Manifest :=
  r.merged.manifest.replayed (written Effect.writes (r.effects w))

def entries (r : Round) (w : World) : List LocalEntry := (r.passPlan w).scan.entries

def lastSynced (r : Round) (w : World) (path : String) : Option ContentHash :=
  (r.preserved w).state.files.lastSynced path

/-- A placeholder found at `q` stands for the live version `hash` of another path. -/
def Misplaced (r : Round) (w : World) (q : String) (stub : StubMeta) (hash : ContentHash) : Prop :=
  (r.passPlan w).scan.placeholders[q]? = some stub ∧ stub.path ≠ q ∧
    r.merged.manifest.liveHash stub.path = some hash

/-- The version to be sent again under `path`: an evicted loser's, whose copy is to be called so,
or that of a moved placeholder. -/
def relocationTo (r : Round) (w : World) (path : String) : Option DeltaEntry :=
  (((r.preserved w).preserved.relocations.reverse.find? fun c => c.1 = path).map Prod.snd).or
    (movedFrom (r.entries w) (r.passPlan w).scan.placeholders r.merged.manifest path)

/-- A file at `path` is to go up, in place of the version that was last synced. -/
def Edited (r : Round) (w : World) (path : String) : Prop :=
  path ∉ r.resumedPaths w ∧ ∃ found, localHash (r.entries w) path = some found ∧
    r.merged.manifest.liveHash path = r.lastSynced w path ∧ r.lastSynced w path ≠ some found

/-- Nothing of the version that was last synced is left here. -/
def Gone (r : Round) (w : World) (path : String) : Prop :=
  localHash (r.entries w) path = none ∧ (r.passPlan w).scan.placeholders[path]? = none ∧
    r.lastSynced w path = r.merged.manifest.liveHash path

/-- No transfer of the pass brings another version to `path`. -/
structure StaysAt (r : Round) (w : World) (path : String) (hash : ContentHash) : Prop where
  resumed : (r.resumedManifest w).liveHash path = some hash
  edited : ¬ r.Edited w path
  relocated : ∀ source, r.relocationTo w path = some source → source.plaintextHash = hash

/-- Every transfer of the plan has ended, relocations with their source's content. -/
structure Answers (plan : Plan) (joined : List (Action × Outcome)) : Prop where
  transfers : (joined.map Prod.fst).Perm (plan.actions.filter fun action =>
    action.kind ∈ [.download, .hydrate, .relocate, .upload])
  fits : ∀ j ∈ joined, j.2.fits j.1.kind = true
  relocated : ∀ action result, (action, .relocated result) ∈ joined → ∃ source,
    plan.relocations[action.path]? = some source ∧ result.contentHash = source.plaintextHash

variable {r : Round} {w : World} {path q : String} {stub : StubMeta} {hash : ContentHash}
  {joined : List (Action × Outcome)}

theorem relocations_eq : (r.passPlan w).plan.relocations[path]? = r.relocationTo w path := by
  simp only [passPlan, planFrom, foldl_addRelocation_source, reconcileWith_relocations,
    planPath_relocation.1]
  rfl

theorem pinnedBy_resumedPlan :
    pinnedBy (r.resumedPlan w) joined = pinnedBy (r.passPlan w).plan joined := rfl

theorem mem_relocate :
    ⟨path, .relocate⟩ ∈ (r.passPlan w).plan.actions ↔ (r.relocationTo w path).isSome := by
  rw [← relocations_eq]
  simp only [passPlan, planFrom, mem_sortActions, foldl_addRelocation_relocate,
    foldl_addRelocation_source, mem_reconcileWith, planPath_relocation.2,
    reconcileWith_relocations, Option.isSome_or, Bool.or_eq_true, Option.isSome_map]
  rw [or_comm]
  refine or_congr_left ?_
  rw [List.find?_isSome]
  simp

theorem mem_decided {kind : ActionKind} (hkind : kind = .upload ∨ kind = .deleteRemote) :
    ⟨path, kind⟩ ∈ (r.passPlan w).plan.actions ↔
      (planPath (r.entries w) (r.preserved w).state.files r.merged.manifest (r.view w) path).1 =
        some kind := by
  constructor
  · intro hmem
    rcases of_mem_actions hmem with h | h | h
    · rcases hkind with rfl | rfl <;> cases h
    · exact h
    · rcases hkind with rfl | rfl <;> cases h
  · intro h
    rcases mem_actions h with hmem | ⟨hhydrate, -⟩
    · exact hmem
    · rcases hkind with rfl | rfl <;> cases hhydrate

theorem mem_upload : ⟨path, .upload⟩ ∈
    (r.resumedPlan w).actions ↔ r.Edited w path := by
  simp only [resumedPlan, dropResumed, List.mem_filter, mem_decided (.inl rfl), planPath_upload_iff]
  rw [and_comm]
  simp [Edited, lastSynced]

theorem mem_deleteRemote (hlive : r.merged.manifest.liveHash path = some hash) :
    ⟨path, .deleteRemote⟩ ∈ (r.passPlan w).plan.actions ↔ r.Gone w path := by
  rw [mem_decided (.inr rfl), planPath_deleteRemote_iff hlive, Gone, hlive]
  rfl

theorem not_deleteRemote (hstub : (r.passPlan w).scan.placeholders[q]? = some stub) :
    ⟨q, .deleteRemote⟩ ∉ (r.passPlan w).plan.actions := by
  rw [mem_decided (.inr rfl)]
  intro h
  cases hlocal : localHash (r.entries w) q with
  | some found =>
      rcases planPath_local_kinds hlocal h with ⟨hkind, -⟩ | hkind | ⟨hkind, -⟩ | hkind <;>
        cases hkind
  | none =>
      have hview : (r.view w).placeholders[q]? = some stub := hstub
      simp only [planPath, hlocal, hview, Option.isSome_none, Bool.false_eq_true, if_false] at h
      rcases placeholderAction_kinds h with hkind | hkind | ⟨hkind | hkind, -⟩ <;> cases hkind

theorem placeholder_live (hmem : ⟨path, .createPlaceholder⟩ ∈ (r.passPlan w).plan.actions ∨
      ⟨path, .updatePlaceholder⟩ ∈ (r.passPlan w).plan.actions) :
    (r.merged.manifest.liveHash path).isSome ∧
      ⟨path, .deleteRemote⟩ ∉ (r.passPlan w).plan.actions := by
  have hplanned : ∃ kind, (planPath (r.entries w) (r.preserved w).state.files r.merged.manifest
      (r.view w) path).1 = some kind ∧
        (kind = .createPlaceholder ∨ kind = .updatePlaceholder ∨ kind = .hydrate) := by
    simp only [passPlan, planFrom, mem_sortActions] at hmem
    rcases hmem with h | h <;> rcases foldl_addRelocation_actions h with hkind | h | ⟨-, h⟩
    · cases hkind
    · exact ⟨_, mem_reconcileWith.mp h, .inl rfl⟩
    · exact ⟨_, mem_reconcileWith.mp h, .inr (.inr rfl)⟩
    · cases hkind
    · exact ⟨_, mem_reconcileWith.mp h, .inr (.inl rfl)⟩
    · exact ⟨_, mem_reconcileWith.mp h, .inr (.inr rfl)⟩
  obtain ⟨kind, hdecided, hkind⟩ := hplanned
  refine ⟨Option.isSome_iff_ne_none.mpr (planPath_placeholder_live hdecided hkind), fun h => ?_⟩
  rw [mem_decided (.inr rfl), hdecided, Option.some.injEq] at h
  subst h
  simp at hkind

theorem resumedManifest_entry {entry : DeltaEntry}
    (h : (r.resumedManifest w)[path]? = some entry) : r.merged.manifest[path]? = some entry ∨
      ∃ upload result, (upload, .resumed result) ∈ r.events.uploads ∧ upload.path = path ∧
        entry.path = path := by
  unfold resumedManifest Round.resumption at h
  generalize hclock : r.events.clock (r.planned w).device _ = clock at h
  have hstart : Resumed (r.passPlan w).manifest r.events clock ⟨[], []⟩ :=
    ⟨List.forall_mem_nil _, List.forall_mem_nil _⟩
  have hresumed := resumeAll_resumed hstart (fun _ => id : r.events.uploads ⊆ r.events.uploads)
  unfold resumeUploads at h
  cases hall : resumeAll (r.passPlan w).manifest clock r.events.uploads ⟨[], []⟩ with
  | mk done finished =>
      rw [hall] at h hresumed
      cases finished with
      | false => exact .inl h
      | true =>
          simp only at h
          split_ifs at h
          · exact .inl h
          · refine (getElem?_insertAll h).imp_right ?_
            rintro ⟨hmem, hpath⟩
            obtain ⟨c, hc, rfl⟩ := List.mem_map.mp hmem
            obtain ⟨upload, hupload, hdelta⟩ := hresumed.completed c hc
            refine ⟨upload, c.2, hupload, ?_, hpath⟩
            rw [← hpath, hdelta]
            rfl

theorem Completes.resumption (h : r.Completes w) : ∃ es, resumeUploads (r.passPlan w).manifest
      (r.events.clock (r.planned w).device (nextLamport (r.passPlan w).remoteLamport
        (r.planned w).device.lamport)) r.events.uploads =
    (es, some (r.resumedManifest w, r.resumedPaths w)) := by
  have hfinishes := h.2.2
  unfold passFinishes at hfinishes
  unfold resumedManifest resumedPaths Round.resumption
  generalize resumeUploads (r.passPlan w).manifest _ r.events.uploads = resumed at hfinishes ⊢
  obtain ⟨es, resumed⟩ := resumed
  cases resumed with
  | none => cases hfinishes
  | some resumed => exact ⟨es, rfl⟩

theorem Completes.joining (h : r.Completes w) (joined : List (Action × Outcome)) :
    passFinishes (r.passPlan w).plan (r.passPlan w).manifest (r.passPlan w).remoteLamport
      (r.planned w).device { r.events with joined } = true := by
  obtain ⟨es, hresumed⟩ := h.resumption
  have hfinishes := h.2.2
  have hsame : resumeUploads (r.passPlan w).manifest
      (PassEvents.clock { r.events with joined } (r.planned w).device (nextLamport
        (r.passPlan w).remoteLamport (r.planned w).device.lamport)) r.events.uploads =
      (es, some (r.resumedManifest w, r.resumedPaths w)) := hresumed
  unfold passFinishes at hfinishes ⊢
  rw [hresumed] at hfinishes
  simp only [hsame]
  refine apply_ends hfinishes fun p hp => ?_
  simp only [dropResumed, List.mem_filter] at hp ⊢
  have hplaced := placeholder_live (hp.imp And.left And.left)
  exact ⟨resumeUploads_live hresumed hplaced.1, fun hdelete => hplaced.2 hdelete.1⟩

theorem Completes.left (h : r.Completes w) (joined : List (Action × Outcome)) (path : String) :
    ((r.joining joined).left w).liveHash path =
      if ⟨path, .deleteRemote⟩ ∈ (r.passPlan w).plan.actions ∧
        path ∉ pinnedBy (r.passPlan w).plan joined then none
      else (landed joined path).or ((r.resumedManifest w).liveHash path) := by
  obtain ⟨es, hresumed⟩ := h.resumption
  exact passEffects_liveHash { r.events with joined } hresumed (h.joining joined)

section Kept

variable {plan : Plan} {resumed : List String}

theorem Answers.mem (h : Answers plan joined) {action : Action} :
    (∃ outcome, (action, outcome) ∈ joined) ↔ action ∈ plan.actions ∧
      action.kind ∈ [ActionKind.download, .hydrate, .relocate, .upload] := by
  have hmem := h.transfers.mem_iff (a := action)
  simpa only [List.mem_map, Prod.exists, exists_and_right, exists_eq_right, List.mem_filter,
    decide_eq_true_eq] using hmem

theorem StaysAt.landed (h : r.StaysAt w path hash)
    (hjoined : Answers (r.resumedPlan w) joined) :
    (FileMirror.landed joined path).or ((r.resumedManifest w).liveHash path) = some hash := by
  cases hlanded : FileMirror.landed joined path with
  | none => exact h.resumed
  | some sent =>
      obtain ⟨⟨action, outcome⟩, hj, rfl, hsent⟩ := landed_eq_some hlanded
      have hplanned := (hjoined.mem.mp ⟨outcome, hj⟩).1
      have hfits := hjoined.fits _ hj
      obtain ⟨path, kind⟩ := action
      cases outcome with
      | uploaded result =>
          simp only [Outcome.fits, decide_eq_true_eq] at hfits
          subst hfits
          exact absurd (mem_upload.mp hplanned) h.edited
      | relocated result =>
          obtain ⟨source, hsource, hcontent⟩ := hjoined.relocated _ _ hj
          have hsame := h.relocated source (relocations_eq ▸ hsource)
          cases hsent
          change some result.contentHash = _
          rw [hcontent, hsame]
      | failed | deferred | downloaded => cases hsent

theorem relocation_lands_or_pins {source : DeltaEntry} (hedited : ¬ r.Edited w q)
    (hsource : r.relocationTo w q = some source)
    (hjoined : Answers (r.resumedPlan w) joined) :
    FileMirror.landed joined q = some source.plaintextHash ∨
      source.path ∈ pinnedBy (r.passPlan w).plan joined := by
  have hrelocate : ⟨q, .relocate⟩ ∈
      (r.resumedPlan w).actions := by
    simp only [resumedPlan, dropResumed, List.mem_filter]
    exact ⟨mem_relocate.mpr (by rw [hsource]; rfl), by simp⟩
  obtain ⟨outcome, hj⟩ := hjoined.mem.mpr ⟨hrelocate, by simp⟩
  have hfits := hjoined.fits _ hj
  cases outcome with
  | failed error =>
      refine .inr (List.mem_filterMap.mpr ⟨_, hj, ?_⟩)
      simp [relocations_eq, hsource]
  | relocated result =>
      refine .inl ?_
      cases hlanded : FileMirror.landed joined q with
      | none =>
          have hnone := landed_eq_none.mp hlanded _ hj rfl
          cases hnone
      | some sent =>
          obtain ⟨⟨⟨p, kind⟩, other⟩, hk, rfl, hsent⟩ := landed_eq_some hlanded
          have hplanned := (hjoined.mem.mp ⟨other, hk⟩).1
          have hother := hjoined.fits _ hk
          cases other with
          | uploaded last =>
              simp only [Outcome.fits, decide_eq_true_eq] at hother
              subst hother
              exact absurd (mem_upload.mp hplanned) hedited
          | relocated last =>
              obtain ⟨again, hagain, hcontent⟩ := hjoined.relocated _ _ hk
              simp only [resumedPlan, dropResumed] at hagain
              rw [relocations_eq, hsource] at hagain
              cases hagain
              cases hsent
              change some last.contentHash = _
              rw [hcontent]
          | failed | deferred | downloaded => cases hsent
  | uploaded | deferred | downloaded => simp [Outcome.fits] at hfits

end Kept

/-- The transfers of a plan that fail where they relocate to a path of `fails`, with uploads of
`content` joined last. -/
def outcome (plan : Plan) (fails : String → Bool) (content : ContentHash) (action : Action) :
    Outcome :=
  match action.kind with
  | .upload => .uploaded ⟨0, 0, content, ""⟩
  | .relocate =>
      if fails action.path then .failed ""
      else
        match plan.relocations[action.path]? with
        | none => .failed ""
        | some source => .relocated ⟨source.size, 0, source.plaintextHash, source.objectKey⟩
  | _ => .downloaded ⟨0, 0, content⟩

def outcomes (plan : Plan) (fails : String → Bool) (content : ContentHash) :
    List (Action × Outcome) :=
  let transfers := plan.actions.filter fun action =>
    action.kind ∈ [.download, .hydrate, .relocate, .upload]
  ((transfers.filter fun action => action.kind ≠ .upload) ++
    transfers.filter fun action => !(action.kind ≠ .upload)).map fun action =>
      (action, outcome plan fails content action)

section Losing

variable {plan : Plan} {fails : String → Bool} {content : ContentHash}

theorem mem_outcomes {action : Action} {answer : Outcome} :
    (action, answer) ∈ outcomes plan fails content ↔
      action ∈ plan.actions ∧ action.kind ∈ [ActionKind.download, .hydrate, .relocate, .upload] ∧
        answer = outcome plan fails content action := by
  simp only [outcomes, List.mem_map, List.mem_append, List.mem_filter, Prod.mk.injEq]
  constructor
  · rintro ⟨b, hb, rfl, rfl⟩
    rcases hb with ⟨⟨hmem, hkind⟩, -⟩ | ⟨⟨hmem, hkind⟩, -⟩ <;>
      exact ⟨hmem, of_decide_eq_true hkind, rfl⟩
  · rintro ⟨hmem, hkind, rfl⟩
    refine ⟨action, ?_, rfl, rfl⟩
    by_cases hupload : action.kind = .upload
    · exact .inr ⟨⟨hmem, decide_eq_true hkind⟩, by simp [hupload]⟩
    · exact .inl ⟨⟨hmem, decide_eq_true hkind⟩, by simp [hupload]⟩

theorem outcomes_answer (plan : Plan) (fails : String → Bool) (content : ContentHash) :
    Answers plan (outcomes plan fails content) := by
  refine ⟨?_, ?_, ?_⟩
  · simp only [outcomes, List.map_map]
    change (List.map id _).Perm _
    rw [List.map_id]
    exact List.filter_append_perm ..
  · rintro ⟨action, answer⟩ hj
    obtain ⟨-, hkind, rfl⟩ := mem_outcomes.mp hj
    obtain ⟨p, kind⟩ := action
    cases kind with
    | relocate =>
        simp only [outcome]
        split_ifs
        · rfl
        · split <;> rfl
    | upload | download | hydrate => rfl
    | _ => simp at hkind
  · intro action result hj
    obtain ⟨-, hkind, hanswer⟩ := mem_outcomes.mp hj
    obtain ⟨p, kind⟩ := action
    cases kind with
    | relocate =>
        simp only [outcome] at hanswer
        split_ifs at hanswer
        split at hanswer
        · cases hanswer
        · rename_i source hsource
          cases hanswer
          exact ⟨source, hsource, rfl⟩
    | upload | download | hydrate => cases hanswer
    | _ => simp at hkind

theorem landed_outcomes {sent : ContentHash}
    (h : FileMirror.landed (outcomes plan fails content) path = some sent) :
    sent = content ∨ fails path = false ∧
      ∃ source, plan.relocations[path]? = some source ∧ source.plaintextHash = sent := by
  obtain ⟨⟨⟨p, kind⟩, answer⟩, hj, rfl, hsent⟩ := landed_eq_some h
  obtain ⟨-, hkind, rfl⟩ := mem_outcomes.mp hj
  cases kind with
  | upload =>
      cases hsent
      exact .inl rfl
  | relocate =>
      simp only [outcome] at hsent
      split_ifs at hsent with hfails
      · cases hsent
      · split at hsent
        · cases hsent
        · rename_i source hsource
          cases hsent
          exact .inr ⟨Bool.eq_false_iff.mpr hfails, source, hsource, rfl⟩
  | download | hydrate => cases hsent
  | _ => simp at hkind

theorem landed_append {before after : List (Action × Outcome)} :
    FileMirror.landed (before ++ after) path =
      (FileMirror.landed after path).or (FileMirror.landed before path) := by
  induction before with
  | nil => simp [FileMirror.landed]
  | cons j before ih => rw [List.cons_append, landed_cons, ih, landed_cons, Option.or_assoc]

theorem landed_outcomes_upload (h : ⟨path, .upload⟩ ∈ plan.actions) :
    FileMirror.landed (outcomes plan fails content) path = some content := by
  simp only [outcomes, List.map_append, landed_append]
  have hmem : ⟨path, .upload⟩ ∈ (plan.actions.filter fun action =>
      action.kind ∈ [ActionKind.download, .hydrate, .relocate, .upload]).filter fun action =>
        !(action.kind ≠ .upload) := by
    simp [h]
  cases hlast : FileMirror.landed (((plan.actions.filter fun action =>
      action.kind ∈ [ActionKind.download, .hydrate, .relocate, .upload]).filter fun action =>
        !(action.kind ≠ .upload)).map fun action => (action, outcome plan fails content action))
          path with
  | none =>
      have hnone := landed_eq_none.mp hlast _ (List.mem_map_of_mem hmem) rfl
      cases hnone
  | some sent =>
      obtain ⟨⟨⟨p, kind⟩, answer⟩, hj, -, hsent⟩ := landed_eq_some hlast
      obtain ⟨b, hb, hpair⟩ := List.mem_map.mp hj
      cases hpair
      have hkind : kind = .upload := by simpa using (List.mem_filter.mp hb).2
      subst hkind
      cases hsent
      rfl

theorem landed_outcomes_none (h : FileMirror.landed (outcomes plan fails content) path = none) :
    ⟨path, .upload⟩ ∉ plan.actions ∧ (⟨path, .relocate⟩ ∈ plan.actions →
      plan.relocations[path]? ≠ none → fails path = true) := by
  refine ⟨fun hupload => ?_, fun hrelocate hsource => ?_⟩
  · rw [landed_outcomes_upload hupload] at h
    cases h
  · by_contra hfails
    obtain ⟨source, hsource⟩ := Option.ne_none_iff_exists'.mp hsource
    have hmem : (⟨path, .relocate⟩, outcome plan fails content ⟨path, .relocate⟩) ∈
        outcomes plan fails content := mem_outcomes.mpr ⟨hrelocate, by simp, rfl⟩
    have hnone := landed_eq_none.mp h _ hmem rfl
    simp [outcome, hfails, hsource, Outcome.sentHash] at hnone

theorem pinnedBy_outcomes (h : path ∈ pinnedBy plan (outcomes plan fails content)) :
    ∃ (q : String) (source : DeltaEntry), fails q = true ∧ plan.relocations[q]? = some source ∧
      source.path = path := by
  obtain ⟨⟨⟨p, kind⟩, answer⟩, hj, hpinned⟩ := List.mem_filterMap.mp h
  obtain ⟨-, hkind, rfl⟩ := mem_outcomes.mp hj
  cases kind with
  | relocate =>
      simp only [outcome] at hpinned
      split_ifs at hpinned with hfails
      · obtain ⟨source, hsource, hpath⟩ := Option.map_eq_some_iff.mp hpinned
        exact ⟨p, source, hfails, hsource, hpath⟩
      · cases hsource : plan.relocations[p]? with
        | none => simp [hsource] at hpinned
        | some source => simp [hsource] at hpinned
  | upload | download | hydrate => cases hpinned
  | _ => simp at hkind

end Losing

theorem not_staysAt_loses {fails : String → Bool} {content : ContentHash}
    (hlost : ¬ r.StaysAt w path hash) (hcontent : content ≠ hash)
    (hfails : fails path = true ↔
      ∃ source, r.relocationTo w path = some source ∧ source.plaintextHash = hash) :
    (FileMirror.landed (outcomes (r.resumedPlan w) fails
      content) path).or ((r.resumedManifest w).liveHash path) ≠ some hash := by
  intro hkept
  cases hlanded : FileMirror.landed (outcomes (r.resumedPlan w)
      fails content) path with
  | some sent =>
      rw [hlanded] at hkept
      cases hkept
      rcases landed_outcomes hlanded with rfl | ⟨hnofail, source, hsource, rfl⟩
      · exact hcontent rfl
      · have hto : r.relocationTo w path = some source := relocations_eq ▸ hsource
        rw [hfails.mpr ⟨source, hto, rfl⟩] at hnofail
        cases hnofail
  | none =>
      rw [hlanded] at hkept
      obtain ⟨hupload, hrelocate⟩ := landed_outcomes_none hlanded
      refine hlost ⟨hkept, fun hedited => hupload (mem_upload.mpr hedited), fun source hsource => ?_⟩
      have hmem : ⟨path, .relocate⟩ ∈
          (r.resumedPlan w).actions := by
        simp only [resumedPlan, dropResumed, List.mem_filter]
        exact ⟨mem_relocate.mpr (by rw [hsource]; rfl), by simp⟩
      have hknown : (r.resumedPlan w).relocations[path]? ≠
          none := by
        simp only [resumedPlan, dropResumed, relocations_eq, hsource]
        simp
      obtain ⟨other, hother, hsame⟩ := hfails.mp (hrelocate hmem hknown)
      rw [hsource] at hother
      cases hother
      exact hsame

theorem Completes.left_moved (h : r.Completes w)
    (hstub : (r.passPlan w).scan.placeholders[q]? = some stub) (joined : List (Action × Outcome)) :
    ((r.joining joined).left w).liveHash q =
      (FileMirror.landed joined q).or ((r.resumedManifest w).liveHash q) := by
  rw [h.left, if_neg fun hdelete => not_deleteRemote hstub hdelete.1]

theorem Completes.loses_both {content : ContentHash} (h : r.Completes w)
    (hmoved : r.Misplaced w q stub hash) (hcontent : content ≠ hash)
    (hq : ¬ r.StaysAt w q hash) (hp : ¬ r.StaysAt w stub.path hash) :
    ∃ joined, Answers (r.resumedPlan w) joined ∧
      ((r.joining joined).left w).liveHash q ≠ some hash ∧
        ((r.joining joined).left w).liveHash stub.path ≠ some hash := by
  classical
  obtain ⟨fails, hfails⟩ : ∃ fails : String → Bool, ∀ path, fails path = true ↔
      ∃ source, r.relocationTo w path = some source ∧ source.plaintextHash = hash :=
    ⟨fun path => decide _, fun path => decide_eq_true_iff⟩
  refine ⟨outcomes (r.resumedPlan w) fails content, outcomes_answer _ _ _, ?_, ?_⟩
  · rw [h.left_moved hmoved.1]
    exact not_staysAt_loses hq hcontent (hfails q)
  · rw [h.left]
    split_ifs
    · exact fun hnone => by cases hnone
    · exact not_staysAt_loses hp hcontent (hfails stub.path)

theorem Completes.loses_gone {content : ContentHash} (h : r.Completes w)
    (hmoved : r.Misplaced w q stub hash) (hcontent : content ≠ hash)
    (hq : ¬ r.StaysAt w q hash) (hgone : r.Gone w stub.path)
    (hbroken : ¬ (¬ r.Edited w q ∧ ∃ source, r.relocationTo w q = some source ∧
      source.path = stub.path ∧ source.plaintextHash = hash)) :
    ∃ joined, Answers (r.resumedPlan w) joined ∧
      ((r.joining joined).left w).liveHash q ≠ some hash ∧
        ((r.joining joined).left w).liveHash stub.path ≠ some hash := by
  classical
  obtain ⟨fails, hfails⟩ : ∃ fails : String → Bool, ∀ path, fails path = true ↔
      path = q ∧ ¬ r.Edited w q ∧
        ∃ source, r.relocationTo w q = some source ∧ source.plaintextHash = hash :=
    ⟨fun path => decide _, fun path => decide_eq_true_iff⟩
  refine ⟨outcomes (r.resumedPlan w) fails content, outcomes_answer _ _ _, ?_, ?_⟩
  · rw [h.left_moved hmoved.1]
    by_cases hedited : r.Edited w q
    · rw [landed_outcomes_upload (mem_upload.mpr hedited)]
      exact fun hsame => hcontent (Option.some.inj hsame)
    · refine not_staysAt_loses hq hcontent ?_
      rw [hfails]
      simp [hedited]
  · -- only the relocation to `q` fails, and it would not pin the source's path
    have hpinned : stub.path ∉ pinnedBy (r.passPlan w).plan
        (outcomes (r.resumedPlan w) fails content) := by
      rw [← pinnedBy_resumedPlan]
      intro hpinned
      obtain ⟨p, source, hfail, hsource, hpath⟩ := pinnedBy_outcomes hpinned
      obtain ⟨rfl, hedited, moved, hto, hsame⟩ := (hfails p).mp hfail
      have hknown : r.relocationTo w p = some source := relocations_eq ▸ hsource
      rw [hto, Option.some.injEq] at hknown
      exact hbroken ⟨hedited, moved, hto, hknown ▸ hpath, hsame⟩
    rw [h.left, if_pos ⟨(mem_deleteRemote hmoved.2.2).mpr hgone, hpinned⟩]
    exact fun hnone => by cases hnone

end Round

/-- Whichever transfers of a pass fail, every moved placeholder's version stays in the log at its
own path or comes to the placeholder's, exactly if nothing else can land on one of the two, and
where the version's own path is gone, its relocation is all that is sent to the other. -/
theorem moved_placeholders_kept_iff {r : Round} {w : World} (hcompletes : r.Completes w) :
    (∀ joined, Round.Answers (r.resumedPlan w) joined →
      ∀ (q : String) (stub : StubMeta) (hash : ContentHash), r.Misplaced w q stub hash →
        ((r.joining joined).left w).liveHash q = some hash ∨
          ((r.joining joined).left w).liveHash stub.path = some hash) ↔
    ∀ (q : String) (stub : StubMeta) (hash : ContentHash), r.Misplaced w q stub hash →
      r.StaysAt w q hash ∨ r.StaysAt w stub.path hash ∧ (r.Gone w stub.path →
        ¬ r.Edited w q ∧ ∃ source, r.relocationTo w q = some source ∧
          source.path = stub.path ∧ source.plaintextHash = hash) := by
  constructor
  · intro hkept q stub hash hmoved
    by_contra hsafe
    obtain ⟨hq, hp⟩ := not_or.mp hsafe
    obtain ⟨content, hcontent⟩ : ∃ content : ContentHash, content ≠ hash := exists_ne hash
    obtain ⟨joined, hanswers, hlost⟩ : ∃ joined, Round.Answers (r.resumedPlan w) joined ∧
        ((r.joining joined).left w).liveHash q ≠ some hash ∧
          ((r.joining joined).left w).liveHash stub.path ≠ some hash := by
      by_cases hstays : r.StaysAt w stub.path hash
      · obtain ⟨hgone, hbroken⟩ := Classical.not_imp.mp (not_and.mp hp hstays)
        exact hcompletes.loses_gone hmoved hcontent hq hgone hbroken
      · exact hcompletes.loses_both hmoved hcontent hq hstays
    exact (hkept joined hanswers q stub hash hmoved).elim hlost.1 hlost.2
  · intro hsafe joined hjoined q stub hash hmoved
    rw [hcompletes.left_moved hmoved.1, hcompletes.left]
    rcases hsafe q stub hash hmoved with hq | ⟨hp, hgone⟩
    · exact .inl (hq.landed hjoined)
    · by_cases hdelete : ⟨stub.path, .deleteRemote⟩ ∈ (r.passPlan w).plan.actions ∧
          stub.path ∉ pinnedBy (r.passPlan w).plan joined
      · obtain ⟨hedited, source, hsource, hpath, rfl⟩ :=
          hgone ((Round.mem_deleteRemote hmoved.2.2).mp hdelete.1)
        rcases Round.relocation_lands_or_pins hedited hsource hjoined with hlanded | hpinned
        · rw [hlanded]
          exact .inl rfl
        · exact absurd (hpath ▸ hpinned) hdelete.2
      · rw [if_neg hdelete]
        exact .inr (hp.landed hjoined)

/-- "a" is evicted, and its placeholder has been moved to "b". -/
def movedDevice (files : LocalTree) : World where
  device := { deviceId := "laptop", deviceName := "pc"
              files := .single "a" { FileRecord.synced "a" 1 10 with residency := .evicted }
              uploads := ∅, lamport := 1, manifestGeneration := 0 }
  tree := files.insert (stubRel "b") (stubFile (StubMeta.new "a" 1 10 "data/a" 0 none))
  log := ∅

def meeting (joined : List (Action × Outcome)) : Round :=
  { readingAgain (.sample "a" "laptop" 1 10 none) with
    events := ⟨[], joined, fun _ => 0, fun _ => "now"⟩
    reaches := 9 }

def relocationDone : List (Action × Outcome) :=
  [(⟨"b", .relocate⟩, .relocated ⟨1, 0, 10, "data/b"⟩)]

/-- The relocation fails, and a new file at "a" goes up. -/
def relocationFailed : List (Action × Outcome) :=
  [(⟨"b", .relocate⟩, .failed "timeout"), (⟨"a", .upload⟩, .uploaded ⟨1, 1, 98, "data/a2"⟩)]

def uploadDone : List (Action × Outcome) :=
  [(⟨"b", .upload⟩, .uploaded ⟨1, 1, 99, "data/b"⟩)]

def realFile (content : ContentHash) : DiskFile := ⟨⟨1, 1⟩, content, true, none⟩

theorem answers_of_check {plan : Plan} {joined : List (Action × Outcome)}
    (htransfers : (joined.map Prod.fst).Perm (plan.actions.filter fun action =>
      action.kind ∈ [.download, .hydrate, .relocate, .upload]))
    (hchecked : joined.all (fun j => j.2.fits j.1.kind &&
      match j.2 with
      | .relocated result =>
          plan.relocations[j.1.path]?.any fun source => result.contentHash = source.plaintextHash
      | _ => true) = true) : Round.Answers plan joined := by
  rw [List.all_eq_true] at hchecked
  refine ⟨htransfers, fun j hj => ?_, fun action result hj => ?_⟩
  · have h := hchecked j hj
    rw [Bool.and_eq_true] at h
    exact h.1
  · have h := hchecked _ hj
    rw [Bool.and_eq_true] at h
    simpa [Option.any_eq_true] using h.2

theorem moved_placeholders_kept_relocated :
    ((meeting relocationDone).left (movedDevice ∅)).liveHash "b" = some 10 ∨
      ((meeting relocationDone).left (movedDevice ∅)).liveHash "a" = some 10 := by
  have hcompletes : (meeting relocationDone).Completes (movedDevice ∅) := by decide +kernel
  have hanswers : Round.Answers ((meeting relocationDone).resumedPlan (movedDevice ∅))
      relocationDone := answers_of_check (by decide +kernel) (by decide +kernel)
  have hfound : ((meeting relocationDone).passPlan (movedDevice ∅)).scan.placeholders.toList =
      [("b", StubMeta.new "a" 1 10 "data/a" 0 none)] := by
    decide +kernel
  have hlive : (meeting relocationDone).merged.manifest.liveHash "a" = some 10 := by decide +kernel
  refine (moved_placeholders_kept_iff hcompletes).mpr ?_ relocationDone hanswers "b"
    (StubMeta.new "a" 1 10 "data/a" 0 none) 10 ⟨by decide +kernel, by decide, hlive⟩
  rintro q stub hash ⟨hstub, -, hsource⟩
  have hmem := Std.ExtTreeMap.mem_toList_iff_getElem?_eq_some.mpr hstub
  rw [hfound, List.mem_singleton, Prod.mk.injEq] at hmem
  obtain ⟨rfl, rfl⟩ := hmem
  cases hlive.symm.trans hsource
  refine .inr ⟨⟨by decide +kernel, ?_, ?_⟩, fun _ => ⟨?_, .sample "a" "laptop" 1 10 none,
    by decide +kernel, rfl, rfl⟩⟩
  · rintro ⟨-, found, hfile, -⟩
    have hnone : localHash ((meeting relocationDone).entries (movedDevice ∅)) "a" = none := by
      decide +kernel
    cases hnone.symm.trans hfile
  · intro source hto
    have hnone : (meeting relocationDone).relocationTo (movedDevice ∅) "a" = none := by
      decide +kernel
    cases hnone.symm.trans hto
  · rintro ⟨-, found, hfile, -⟩
    have hnone : localHash ((meeting relocationDone).entries (movedDevice ∅)) "b" = none := by
      decide +kernel
    cases hnone.symm.trans hfile

/-- A failed relocation lets the source's path advance where a file has been put there; and a file
at the placeholder's own path keeps it from being relocated, but not its source from being
deleted. -/
theorem moved_placeholders_lost :
    ((meeting relocationFailed).Completes (movedDevice (.single "a" (realFile 98))) ∧
      Round.Answers ((meeting relocationFailed).resumedPlan (movedDevice (.single "a" (realFile 98))))
        relocationFailed ∧
      (meeting relocationFailed).Misplaced (movedDevice (.single "a" (realFile 98))) "b"
        (StubMeta.new "a" 1 10 "data/a" 0 none) 10 ∧
      ((meeting relocationFailed).left (movedDevice (.single "a" (realFile 98)))).liveHash "b" =
        none ∧
      ((meeting relocationFailed).left (movedDevice (.single "a" (realFile 98)))).liveHash "a" =
        some 98) ∧
    ((meeting uploadDone).Completes (movedDevice (.single "b" (realFile 99))) ∧
      Round.Answers ((meeting uploadDone).resumedPlan (movedDevice (.single "b" (realFile 99))))
        uploadDone ∧
      (meeting uploadDone).Misplaced (movedDevice (.single "b" (realFile 99))) "b"
        (StubMeta.new "a" 1 10 "data/a" 0 none) 10 ∧
      ((meeting uploadDone).left (movedDevice (.single "b" (realFile 99)))).liveHash "b" =
        some 99 ∧
      ((meeting uploadDone).left (movedDevice (.single "b" (realFile 99)))).liveHash "a" = none) := by
  refine ⟨⟨by decide +kernel, answers_of_check (by decide +kernel) (by decide +kernel),
    ⟨by decide +kernel, by decide, by decide +kernel⟩, by decide +kernel, by decide +kernel⟩,
    by decide +kernel, answers_of_check (by decide +kernel) (by decide +kernel),
    ⟨by decide +kernel, by decide, by decide +kernel⟩, by decide +kernel, by decide +kernel⟩

end FileMirror
