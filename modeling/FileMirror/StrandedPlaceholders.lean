import FileMirror.AgreementRecorded
import FileMirror.EvictionSafe

set_option autoImplicit false

namespace FileMirror

open Transitions WriteAhead

/-- A placeholder that can be read stands at the path, and no file. -/
def LocalTree.Stands (t : LocalTree) (path : String) (stub : StubMeta) : Prop :=
  t[path]? = none ∧ t[stubRel path]?.bind DiskFile.stub = some stub

/-- The file is evicted as it should be: its row has the hash, its placeholder is its own, and it is
hydrated where that is asked for. -/
structure World.EvictedAt (w : World) (path : String) (hash : ContentHash) : Prop where
  row : w.device.files.status path = some (some hash, true)
  names : ∃ stub, w.tree.Stands path stub ∧ stub.path = path
  hydrates : ∀ (entries : List LocalEntry) (remote : Manifest) (view : ResidencyView)
    (stub : StubMeta), localHash entries path = none → remote.liveHash path = some hash →
      view.placeholders[path]? = some stub → stub.path = path → view.wantsLocal path = true →
        (planPath entries w.device.files remote view path).1 = some .hydrate

/-- The pass ends with nothing gone wrong, and it reads and finds the path undisturbed. -/
structure Round.Quiet (r : Round) (w : World) (fetches : List Fetch) (path : String)
    (hash : ContentHash) : Prop where
  completes : r.Completes w
  answers : Answers (r.resumedPlan w) r.events.joined
  succeeds : ∀ action error, (action, .failed error) ∉ r.events.joined
  transfers : r.Transfers w fetches
  fetching : ∀ f ∈ fetches, f.action.kind = .download ∨ f.action.kind = .hydrate
  spares : r.LeavesAlone w path hash
  finds : excluded r.options.ignored (stubRel path) = false
  readable : ∀ stub, .writePlaceholder stub ∈ r.effects w → stub.path = path →
    stub.textLen ≤ maxStubLen

/-- The placeholder names another path, which has no live version. -/
def Round.Strands (r : Round) (path : String) (stub : StubMeta) : Prop :=
  stub.path ≠ path ∧ r.merged.manifest.liveHash stub.path = none

section Rows

variable {w : World} {now : String → ℕ} {e : Effect} {es : List Effect} {path : String}
  {hash : ContentHash} {b : Baseline}

theorem status_eq (h : b.status path = some (some hash, true)) :
    ∃ record, b[path]? = some record ∧ record.lastSyncedHash = some hash ∧
      record.isEvicted = true := by
  unfold Baseline.status at h
  obtain ⟨record, hrow, hsays⟩ := Option.map_eq_some_iff.mp h
  rw [Prod.mk.injEq] at hsays
  exact ⟨record, hrow, hsays⟩

theorem records_eq_none : e.records path = none ↔
    (∀ hash, ¬ e.Confirms path hash) ∧ e ≠ .removeRow path := by
  unfold Effect.Confirms
  cases e with
  | confirmSync p size mtimeNs h =>
      by_cases hp : p = path
      · simp [Effect.records, hp]
      · simp [Effect.records, hp]
  | confirmPlaceholder p size h =>
      by_cases hp : p = path
      · simp [Effect.records, hp]
      · simp [Effect.records, hp]
  | removeRow p => simp [Effect.records]
  | _ => simp [Effect.records]

theorem status_recorded (hplaces : ∀ size mtimeNs h, .confirmSync path size mtimeNs h ∉ es)
    (hrecorded : recorded es path = some (some hash)) :
    (es.foldl (World.run now) w).device.files.status path = some (some hash, true) := by
  induction es using List.reverseRecOn with
  | nil => cases hrecorded
  | append_singleton es e ih =>
      rw [recorded_append] at hrecorded
      rw [List.foldl_append, List.foldl_cons, List.foldl_nil]
      cases he : e.records path with
      | none =>
          have hnone : recorded [e] path = none := recorded_silent (by simpa using he)
          rw [hnone, Option.none_or] at hrecorded
          obtain ⟨hconfirms, hremoves⟩ := records_eq_none.mp he
          rw [status_run _ now hconfirms hremoves]
          exact ih (fun size mtimeNs h hmem =>
            hplaces size mtimeNs h (List.mem_append_left _ hmem)) hrecorded
      | some s =>
          rw [recorded_singleton, he, Option.some_or] at hrecorded
          cases hrecorded
          cases e with
          | confirmSync p size mtimeNs h =>
              simp only [Effect.records] at he
              split_ifs at he with hp
              subst hp
              exact absurd (List.mem_append_right _ (List.mem_singleton_self _))
                (hplaces size mtimeNs h)
          | confirmPlaceholder p size h =>
              simp only [Effect.records] at he
              split_ifs at he with hp
              cases he
              subst hp
              simp [World.run, DeviceState.confirmPlaceholder, Baseline.status,
                FileRecord.isEvicted]
          | removeRow p =>
              simp only [Effect.records] at he
              split_ifs at he
              cases he
          | _ => cases he

theorem agreed_runAll {present : Prop} (hall : ∀ e ∈ es, e.LeavesAlone present path hash)
    (hrecorded : recorded es path ≠ none) :
    ∃ record, (es.foldl (World.run now) w).device.Agreed path hash record := by
  induction es using List.reverseRecOn with
  | nil => exact absurd rfl hrecorded
  | append_singleton es e ih =>
      have hlast := hall e (List.mem_append_right _ (List.mem_singleton_self _))
      rw [List.foldl_append, List.foldl_cons, List.foldl_nil]
      cases he : e.records path with
      | none =>
          rw [recorded_append, recorded_singleton, he, Option.none_or] at hrecorded
          obtain ⟨record, hagreed⟩ := ih (fun f hf => hall f (List.mem_append_left _ hf)) hrecorded
          have hnext : ∃ record', ((es.foldl (World.run now) w).run now e).device.Agreed path hash
              record' ∧ (present ∨ record'.isEvicted = record.isEvicted) := hlast.row hagreed
          obtain ⟨record', hagreed', -⟩ := hnext
          exact ⟨record', hagreed'⟩
      | some s =>
          cases e with
          | confirmSync p size mtimeNs h =>
              simp only [Effect.records] at he
              split_ifs at he with hp
              subst hp
              obtain ⟨rfl, -⟩ := hlast rfl
              exact ⟨_, agreed_insert rfl rfl⟩
          | confirmPlaceholder p size h =>
              simp only [Effect.records] at he
              split_ifs at he with hp
              exact absurd hp hlast
          | removeRow p =>
              simp only [Effect.records] at he
              split_ifs at he with hp
              exact absurd hp hlast
          | _ => cases he

theorem hydrates_of_status {entries : List LocalEntry} {remote : Manifest} {view : ResidencyView}
    {stub : StubMeta} (h : b.status path = some (some hash, true))
    (hnone : localHash entries path = none) (hlive : remote.liveHash path = some hash)
    (hfound : view.placeholders[path]? = some stub) (hown : stub.path = path)
    (hwants : view.wantsLocal path = true) :
    (planPath entries b remote view path).1 = some .hydrate := by
  obtain ⟨record, hrow, hsynced, hevicted⟩ := status_eq h
  have hbase : b.lastSynced path = some hash := by
    rw [Baseline.lastSynced, hrow, Option.bind_some, hsynced]
  simp [planPath, hnone, hfound, placeholderAction, hown, hrow, hbase, hsynced, hlive, classify,
    hwants]

end Rows

section Planned

variable {r : Round} {w : World} {fetches : List Fetch} {path : String} {hash : ContentHash}
  {stub : StubMeta} {kind : ActionKind}

namespace Round.Quiet

theorem joined_planned (h : r.Quiet w fetches path hash) {p : String} {outcome : Outcome}
    (hmem : (⟨p, kind⟩, outcome) ∈ r.events.joined) :
    ⟨p, kind⟩ ∈ (r.passPlan w).plan.actions ∧ outcome.fits kind = true := by
  have hfits := h.transfers.fits
  simp only [PassEvents.fits, Bool.and_eq_true, List.all_eq_true, decide_eq_true_eq] at hfits
  obtain ⟨haction, hfit⟩ := hfits.2 _ hmem
  exact ⟨List.mem_of_mem_filter haction, hfit⟩

theorem relocated (h : r.Quiet w fetches path hash)
    (hrelocate : ⟨path, .relocate⟩ ∈ (r.passPlan w).plan.actions) :
    ∃ result, (⟨path, .relocate⟩, .relocated result) ∈ r.events.joined := by
  have hmem : ⟨path, .relocate⟩ ∈ (r.resumedPlan w).actions := by
    simp only [resumedPlan, dropResumed, List.mem_filter]
    exact ⟨hrelocate, by simp⟩
  obtain ⟨outcome, hj⟩ := h.answers.mem.mpr ⟨hmem, by simp⟩
  have hfits := h.answers.fits _ hj
  cases outcome with
  | relocated result => exact ⟨result, hj⟩
  | failed error => exact absurd hj (h.succeeds _ error)
  | uploaded | deferred | downloaded => simp [Outcome.fits] at hfits

theorem recorded_of_planned (h : r.Quiet w fetches path hash)
    (hplanned : ⟨path, .updatePlaceholder⟩ ∈ (r.passPlan w).plan.actions ∨
    ⟨path, .relocate⟩ ∈ (r.passPlan w).plan.actions) : recorded (r.effects w) path ≠ none := by
  rcases hplanned with hupdate | hrelocate
  · obtain ⟨size, other, hmem⟩ := passEffects_updatePlaceholder h.completes.2.2 hupdate
      fun action error entry hj => absurd hj (h.succeeds action error)
    exact recorded_ne_none hmem (by simp [Effect.records])
  · obtain ⟨result, hj⟩ := h.relocated hrelocate
    exact passEffects_joined h.completes.2.2 hj (.inr (.inl ⟨result, rfl⟩))

theorem left_eq (h : r.Quiet w fetches path hash) (hname : Mirrorable path)
    (hkept : ⟨path, .deleteRemote⟩ ∉ (r.passPlan w).plan.actions) :
    (r.left w).liveHash path = (landed r.events.joined path).or (some hash) := by
  obtain ⟨es, hresumed⟩ := h.completes.resumption
  have hmanifest : (r.resumedManifest w).liveHash path = some hash := by
    have hlive : (r.merged.manifest.liveHash path).isSome := by rw [h.spares.live]; rfl
    have hresumedLive : ((r.resumedManifest w).liveHash path).isSome :=
      resumeUploads_live hresumed hlive
    unfold Manifest.liveHash at hresumedLive ⊢
    obtain hentry | ⟨e, hentry⟩ := Option.eq_none_or_eq_some (r.resumedManifest w)[path]?
    · rw [hentry] at hresumedLive
      cases hresumedLive
    · obtain ⟨-, hsame⟩ := h.spares.fetched_entry hname hentry
      rw [hentry, Option.bind_some] at hresumedLive ⊢
      split_ifs at hresumedLive ⊢ with hdeleted
      · cases hresumedLive
      · rw [hsame]
  have hleft := h.completes.left r.events.joined path
  rw [if_neg fun hdelete => hkept hdelete.1, hmanifest] at hleft
  exact hleft

theorem landed_none (h : r.Quiet w fetches path hash)
    (hupload : ⟨path, .upload⟩ ∉ (r.passPlan w).plan.actions)
    (hstays : ⟨path, .relocate⟩ ∉ (r.passPlan w).plan.actions) :
    landed r.events.joined path = none := by
  rw [landed_eq_none]
  rintro ⟨⟨p, kind⟩, outcome⟩ hmem rfl
  obtain ⟨hplanned, hfits⟩ := h.joined_planned hmem
  cases outcome with
  | uploaded result =>
      have hkind : kind = .upload := by simpa [Outcome.fits] using hfits
      exact absurd (hkind ▸ hplanned) hupload
  | relocated result =>
      have hkind : kind = .relocate := by simpa [Outcome.fits] using hfits
      exact absurd (hkind ▸ hplanned) hstays
  | failed | deferred | downloaded => rfl

variable (h : r.Quiet w fetches path hash) (hname : Mirrorable path)
  (hstands : w.tree.Stands path stub)

include h hname hstands

theorem found : localHash (r.entries w) path = none ∧
    (r.view w).placeholders[path]? = some stub := by
  obtain ⟨hnone, hfound⟩ := h.spares.placeholder hname hstands.1
  rw [h.finds, if_neg Bool.false_ne_true, hstands.2] at hfound
  exact ⟨hnone, hfound⟩

theorem decided : (planPath (r.entries w) (r.preserved w).state.files r.merged.manifest
      (r.view w) path).1 =
    if stub.path = path then
      if (r.view w).wantsLocal path then some .hydrate
      else if (r.preserved w).state.files.status path = some (some hash, true) then none
      else some .updatePlaceholder
    else if (r.merged.manifest.liveHash stub.path).isSome then some .relocate else none := by
  obtain ⟨hnone, hfound⟩ := h.found hname hstands
  simp only [planPath, hnone, hfound, h.spares.live, Option.isSome_none, Bool.false_eq_true,
    if_false, placeholderAction]
  by_cases hown : stub.path = path
  · rw [if_pos hown, if_neg (not_not.mpr hown)]
    simp only [Baseline.lastSynced, Baseline.status]
    obtain hrow | ⟨record, hrow⟩ := Option.eq_none_or_eq_some (r.preserved w).state.files[path]?
    · by_cases hwants : (r.view w).wantsLocal path = true <;> simp [hrow, hwants, classify]
    · obtain hsynced | ⟨synced, hsynced⟩ := Option.eq_none_or_eq_some record.lastSyncedHash
      · by_cases hwants : (r.view w).wantsLocal path = true <;>
          simp [hrow, hwants, hsynced, classify]
      · by_cases hsame : hash = synced
        · by_cases hwants : (r.view w).wantsLocal path = true <;>
            by_cases hevicted : record.isEvicted = true <;>
              simp [hrow, hwants, hsynced, hsame, hevicted, classify]
        · have hother : ¬ synced = hash := fun heq => hsame heq.symm
          by_cases hwants : (r.view w).wantsLocal path = true <;>
            simp [hrow, hwants, hsynced, hsame, hother, classify]
  · rw [if_neg hown, if_pos hown]
    unfold Manifest.liveHash
    obtain hsource | ⟨source, hsource⟩ := Option.eq_none_or_eq_some r.merged.manifest[stub.path]?
    · simp [hsource]
    · by_cases hdeleted : source.deleted = true <;> simp [hsource, hdeleted]

theorem planned (hmem : ⟨path, kind⟩ ∈ (r.passPlan w).plan.actions) :
    stub.path = path ∧ (kind = .hydrate ∨ kind = .updatePlaceholder) ∨
      kind = .relocate ∧ stub.path ≠ path ∧ r.merged.manifest.liveHash stub.path ≠ none := by
  have hdecided : ∀ k, (planPath (r.entries w) (r.preserved w).state.files r.merged.manifest
      (r.view w) path).1 = some k → stub.path = path ∧ (k = .hydrate ∨ k = .updatePlaceholder) ∨
        k = .relocate ∧ stub.path ≠ path ∧ r.merged.manifest.liveHash stub.path ≠ none := by
    intro k hk
    rw [h.decided hname hstands] at hk
    split_ifs at hk with hown hwants hstatus hlive
    · cases hk
      exact .inl ⟨hown, .inl rfl⟩
    · cases hk
      exact .inl ⟨hown, .inr rfl⟩
    · cases hk
      exact .inr ⟨rfl, hown, Option.isSome_iff_ne_none.mp hlive⟩
  by_cases hkind : kind = .relocate
  · subst hkind
    -- no copy of a conflict's loser has this name
    have hcopy : ((r.preserved w).preserved.relocations.reverse.find? fun c => c.1 = path) =
        none := by
      rw [List.find?_eq_none]
      intro c hc
      simpa using (h.spares.clears hname).copies c (List.mem_reverse.mp hc)
    have hto := mem_relocate.mp hmem
    obtain ⟨hnone, hfound⟩ := h.found hname hstands
    have hfound' : (r.passPlan w).scan.placeholders[path]? = some stub := hfound
    rw [relocationTo, hcopy, Option.map_none, Option.none_or] at hto
    refine hdecided _ (planPath_relocation.2.mpr ?_)
    rw [planPath_relocation.1]
    exact hto
  · simp only [passPlan, planFrom, mem_sortActions] at hmem
    rcases foldl_addRelocation_actions hmem with hrelocate | hmem | ⟨hupdate, hmem⟩
    · exact absurd hrelocate hkind
    · exact hdecided _ (mem_reconcileWith.mp hmem)
    · simp only at hupdate
      rcases hdecided _ (mem_reconcileWith.mp hmem) with ⟨hown, -⟩ | ⟨hrelocate, -⟩
      · exact .inl ⟨hown, .inr hupdate⟩
      · cases hrelocate

theorem not_planned (hkind : kind ≠ .hydrate ∧ kind ≠ .updatePlaceholder ∧ kind ≠ .relocate) :
    ⟨path, kind⟩ ∉ (r.passPlan w).plan.actions := by
  obtain ⟨hhydrate, hupdate, hrelocate⟩ := hkind
  intro hmem
  rcases h.planned hname hstands hmem with ⟨-, hkind | hkind⟩ | ⟨hkind, -⟩
  · exact hhydrate hkind
  · exact hupdate hkind
  · exact hrelocate hkind

theorem left_standing :
    (r.left w).liveHash path = (landed r.events.joined path).or (some hash) :=
  h.left_eq hname (h.not_planned hname hstands (by simp))

theorem left_unmoved (hstays : ⟨path, .relocate⟩ ∉ (r.passPlan w).plan.actions) :
    (r.left w).liveHash path = some hash := by
  rw [h.left_standing hname hstands,
    h.landed_none (h.not_planned hname hstands (by simp)) hstays]
  rfl

theorem not_uploaded (result : UploadResult) : ¬ r.events.Uploaded path result := by
  rintro (⟨⟨p, kind⟩, hmem, rfl⟩ | ⟨upload, hmem, rfl⟩)
  · obtain ⟨hplanned, hfits⟩ := h.joined_planned hmem
    have hkind : kind = .upload := by simpa [Outcome.fits] using hfits
    subst hkind
    exact h.not_planned hname hstands (by simp) hplanned
  · exact (h.spares.resumed _ hmem).1 hname.canonical

theorem effect_files {e : Effect} (he : e ∈ r.effects w) :
    e.SparesFiles path ∨ ∃ written, e = .writePlaceholder written ∧ written.path = path := by
  have horigin : e.Origin (r.passPlan w).plan.actions r.events w.device.deviceName := by
    rw [← (h.spares.clears hname).deviceName]
    exact passEffects_origin he
  cases e with
  | writePlaceholder written =>
      by_cases hpath : written.path = path
      · exact .inr ⟨written, rfl, hpath⟩
      · exact .inl hpath
  | deleteLocal p =>
      refine .inl ⟨?_, ?_⟩
      · rintro rfl
        have hmem : ⟨p, .deleteLocal⟩ ∈ (r.passPlan w).plan.actions := horigin
        exact h.not_planned hname hstands (by simp) hmem
      · rintro rfl
        cases h.spares.reserved hname horigin
  | setAside p target =>
      obtain ⟨hmem, htarget⟩ := horigin
      obtain ⟨hcopy, hcopyStub⟩ := h.spares.copies p
      refine .inl ⟨?_, ?_, fun heq => hcopy (heq ▸ htarget), fun heq => hcopyStub (heq ▸ htarget)⟩
      · rintro rfl
        exact h.not_planned hname hstands (by simp) hmem
      · rintro rfl
        cases h.spares.reserved hname hmem
  | _ => exact .inl trivial

theorem placed (hplaced : Placed (r.passPlan w).plan.actions r.events path) :
    ⟨path, .updatePlaceholder⟩ ∈ (r.passPlan w).plan.actions ∨
      ⟨path, .relocate⟩ ∈ (r.passPlan w).plan.actions := by
  rcases hplaced with hcreate | hupdate | ⟨⟨p, kind⟩, result, hmem, rfl⟩
  · exact absurd hcreate (h.not_planned hname hstands (by simp))
  · exact .inl hupdate
  · obtain ⟨hplanned, hfits⟩ := h.joined_planned hmem
    have hkind : kind = .relocate := by simpa [Outcome.fits] using hfits
    exact .inr (hkind ▸ hplanned)

end Round.Quiet

end Planned

def LocalTree.Own (t : LocalTree) (path : String) : Prop :=
  ∃ stub, t.Stands path stub ∧ stub.path = path

section Trees

variable {w : World} {now : String → ℕ} {e : Effect} {es : List Effect} {path : String}
  {stub : StubMeta}

theorem LocalTree.Stands.congr {t t' : LocalTree} (h : t.Stands path stub)
    (hfile : t'[path]? = t[path]?) (hstub : t'[stubRel path]? = t[stubRel path]?) :
    t'.Stands path stub := ⟨hfile.trans h.1, by rw [hstub, h.2]⟩

theorem files_runAll (w : World) (now : String → ℕ) (hname : Mirrorable path) (hspares : ∀ e ∈ es, e.SparesFiles path) :
    (es.foldl (World.run now) w).tree[path]? = w.tree[path]? ∧
      (es.foldl (World.run now) w).tree[stubRel path]? = w.tree[stubRel path]? := by
  induction es generalizing w with
  | nil => exact ⟨rfl, rfl⟩
  | cons e es ih =>
      obtain ⟨hfile, hstub⟩ : (w.run now e).tree[path]? = w.tree[path]? ∧
          (w.run now e).tree[stubRel path]? = w.tree[stubRel path]? :=
        (hspares e (List.mem_cons_self ..)).tree hname
      obtain ⟨hfile', hstub'⟩ := ih (w.run now e) fun f hf =>
        hspares f (List.mem_cons_of_mem _ hf)
      exact ⟨hfile'.trans hfile, hstub'.trans hstub⟩

theorem own_write {written : StubMeta} (habsent : w.tree[path]? = none)
    (hpath : written.path = path) (hfits : written.textLen ≤ maxStubLen) :
    (w.run now (.writePlaceholder written)).tree.Own path := by
  subst hpath
  refine ⟨written, ⟨?_, ?_⟩, rfl⟩
  · exact (StringMap.getElem?_insert ..).trans ((if_neg (stubRel_ne _)).trans habsent)
  · simp only [World.run, StringMap.getElem?_insert, if_true, Option.bind_some, stubFile]
    exact if_pos hfits

theorem own_runAll (hname : Mirrorable path) (habsent : w.tree[path]? = none)
    (hfiles : ∀ e ∈ es, e.SparesFiles path ∨ ∃ written, e = .writePlaceholder written ∧
      written.path = path ∧ written.textLen ≤ maxStubLen)
    (hown : w.tree.Own path ∨ ∃ written, .writePlaceholder written ∈ es ∧ written.path = path) :
    (es.foldl (World.run now) w).tree.Own path := by
  induction es generalizing w with
  | nil =>
      rcases hown with hown | ⟨_, hmem, -⟩
      · exact hown
      · cases hmem
  | cons e es ih =>
      have hrest := fun f hf => hfiles f (List.mem_cons_of_mem _ hf)
      rcases hfiles e (List.mem_cons_self ..) with hspares | ⟨written, rfl, hpath, hfits⟩
      · obtain ⟨hfile, hstub⟩ : (w.run now e).tree[path]? = w.tree[path]? ∧
            (w.run now e).tree[stubRel path]? = w.tree[stubRel path]? := hspares.tree hname
        refine ih (hfile.trans habsent) hrest ?_
        rcases hown with ⟨own, hstands, hnamed⟩ | ⟨written, hmem, hpath⟩
        · exact .inl ⟨own, hstands.congr hfile hstub, hnamed⟩
        · rcases List.mem_cons.mp hmem with rfl | hmem
          · exact absurd hpath hspares
          · exact .inr ⟨written, hmem, hpath⟩
      · have hwritten : (w.run now (.writePlaceholder written)).tree.Own path :=
          own_write habsent hpath hfits
        have hstill : (w.run now (.writePlaceholder written)).tree[path]? = none := by
          obtain ⟨_, hstands, -⟩ := hwritten
          exact hstands.1
        exact ih hstill hrest (.inl hwritten)

end Trees

section Mended

variable {r : Round} {w : World} {fetches : List Fetch} {path : String} {hash : ContentHash}
  {stub : StubMeta}

theorem Round.Completes.fetching (h : r.Completes w) (fetches : List Fetch) :
    ∃ t : World, t = (r.effects w).foldl (World.run r.events.unix)
        { r.planned w with tree := r.fetched w fetches } ∧
      w.passFetching r fetches = { t with device := t.device.recordScan (r.entries w) } := by
  have hall : (r.effects w).take r.reaches = r.effects w := List.take_of_length_le (by
    have hlength := h.2.1
    omega)
  refine ⟨_, rfl, ?_⟩
  unfold World.passFetching
  rw [if_pos h.1, if_pos h, hall]
  rfl

namespace Round.Quiet

variable (h : r.Quiet w fetches path hash) (hname : Mirrorable path)
  (hstands : w.tree.Stands path stub)

include h hname hstands

theorem fetched_stands (hstays : ⟨path, .hydrate⟩ ∉ (r.passPlan w).plan.actions) :
    (r.fetched w fetches).Stands path stub := by
  have hclears := h.spares.clears hname
  have habsent : (r.preserved w).tree[path]? = none := hclears.absent hstands.1
  have hfile : (r.planned w).tree[path]? = (r.preserved w).tree[path]? := Round.planned_file hname
  have hplanned : (r.planned w).tree.Stands path stub :=
    hstands.congr (hfile.trans (habsent.trans hstands.1.symm))
      ((Round.planned_stub habsent).trans hclears.stub)
  have hother : ∀ f ∈ fetches, f.action.path ≠ path := by
    rintro ⟨⟨p, kind⟩, mtimeNs, unstubbed⟩ hf rfl
    have hmem := h.transfers.planned _ hf
    rcases h.fetching _ hf with hkind | hkind
    · have hdownload : ⟨p, .download⟩ ∈ (r.passPlan w).plan.actions := hkind ▸ hmem
      exact h.not_planned hname hstands (by simp) hdownload
    · exact hstays (hkind ▸ hmem)
  have hframe : (r.fetched w fetches)[path]? = (r.planned w).tree[path]? ∧
      (r.fetched w fetches)[stubRel path]? = (r.planned w).tree[stubRel path]? :=
    h.spares.fetchAll_other _ hname hother
  exact hplanned.congr hframe.1 hframe.2

theorem not_downloaded (hstays : ⟨path, .hydrate⟩ ∉ (r.passPlan w).plan.actions)
    (other : ContentHash) : ¬ r.events.Downloaded path other := by
  rintro ⟨⟨p, kind⟩, d, hmem, rfl, -⟩
  obtain ⟨hplanned, hfits⟩ := h.joined_planned hmem
  have hkind : kind = .download ∨ kind = .hydrate := by simpa [Outcome.fits] using hfits
  rcases hkind with rfl | rfl
  · exact h.not_planned hname hstands (by simp) hplanned
  · exact hstays hplanned

theorem not_confirmed (hstays : ⟨path, .hydrate⟩ ∉ (r.passPlan w).plan.actions) (size : ℕ)
    (mtimeNs : ℤ) (other : ContentHash) :
    .confirmSync path size mtimeNs other ∉ r.effects w := by
  intro he
  rcases passEffects_origin he with ⟨result, huploaded, -⟩ | hdownloaded
  · exact h.not_uploaded hname hstands result huploaded
  · exact h.not_downloaded hname hstands hstays other hdownloaded

theorem row_after (hstays : ⟨path, .hydrate⟩ ∉ (r.passPlan w).plan.actions)
    (hkept : ¬ r.Strands path stub) {other : ContentHash}
    (hleft : (r.left w).liveHash path = some other) :
    (w.passFetching r fetches).device.files.status path = some (some other, true) := by
  obtain ⟨hnone, -⟩ := h.found hname hstands
  obtain ⟨t, ht, hpass⟩ := h.completes.fetching fetches
  rw [hpass, status_recordScan (localHash_eq_none.mp hnone), ht]
  cases hrecorded : recorded (r.effects w) path with
  | some s =>
      obtain ⟨es, hresumed⟩ := h.completes.resumption
      have hs : s = some other := by
        rcases passEffects_records hresumed h.completes.2.2
            (h.not_planned hname hstands (by simp)) (h.not_planned hname hstands (by simp))
            hrecorded hleft with hs | ⟨fetched, -, hdownloaded⟩
        · exact hs
        · exact absurd hdownloaded (h.not_downloaded hname hstands hstays fetched)
      subst hs
      exact status_recorded (h.not_confirmed hname hstands hstays) hrecorded
  | none =>
      -- nothing was planned, so that the row has been right all the time
      have hnot : ⟨path, .updatePlaceholder⟩ ∉ (r.passPlan w).plan.actions ∧
          ⟨path, .relocate⟩ ∉ (r.passPlan w).plan.actions :=
        not_or.mp fun hplanned => h.recorded_of_planned hplanned hrecorded
      have hdecided : (planPath (r.entries w) (r.preserved w).state.files r.merged.manifest
          (r.view w) path).1 = none := by
        rw [Option.eq_none_iff_forall_ne_some]
        intro kind hkind
        rcases mem_actions hkind with hmem | ⟨-, hmem⟩
        · rcases h.planned hname hstands hmem with ⟨-, rfl | rfl⟩ | ⟨rfl, -⟩
          · exact hstays hmem
          · exact hnot.1 hmem
          · exact hnot.2 hmem
        · exact hnot.1 hmem
      have hsame : other = hash := by
        rw [h.left_unmoved hname hstands hnot.2] at hleft
        exact (Option.some.inj hleft).symm
      subst hsame
      rw [h.decided hname hstands] at hdecided
      have hstatus : (r.preserved w).state.files.status path = some (some other, true) := by
        split_ifs at hdecided with hown hwants hstatus hlive
        · exact hstatus
        · exact absurd ⟨hown, Option.not_isSome_iff_eq_none.mp hlive⟩ hkept
      rw [← hstatus]
      have hsilent : ∀ e ∈ r.effects w, e.records path = none := by
        intro e he
        by_contra hrecords
        exact recorded_ne_none he hrecords hrecorded
      refine status_runAll _ _ (fun e he => (records_eq_none.mp (hsilent e he)).1) fun he => ?_
      exact (records_eq_none.mp (hsilent _ he)).2 rfl

theorem evicted (hstays : ⟨path, .hydrate⟩ ∉ (r.passPlan w).plan.actions)
    (hkept : ¬ r.Strands path stub) {other : ContentHash}
    (hleft : (r.left w).liveHash path = some other) :
    (w.passFetching r fetches).EvictedAt path other := by
  have hrow := h.row_after hname hstands hstays hkept hleft
  refine ⟨hrow, ?_, fun entries remote view found hnone hlive hfound hown hwants =>
    hydrates_of_status hrow hnone hlive hfound hown hwants⟩
  obtain ⟨t, ht, hpass⟩ := h.completes.fetching fetches
  have hfetched := h.fetched_stands hname hstands hstays
  have hwritten : (r.fetched w fetches).Own path ∨ ∃ written,
      .writePlaceholder written ∈ r.effects w ∧ written.path = path := by
    by_cases hown : stub.path = path
    · exact .inl ⟨stub, hfetched, hown⟩
    · have hlive : (r.merged.manifest.liveHash stub.path).isSome :=
        Option.isSome_iff_ne_none.mpr fun hgone => hkept ⟨hown, hgone⟩
      have hdecided := h.decided hname hstands
      rw [if_neg hown, if_pos hlive] at hdecided
      have hmem := (mem_actions hdecided).resolve_right fun hhydrate => by cases hhydrate.1
      obtain ⟨result, hj⟩ := h.relocated hmem
      obtain ⟨written, hpath, hwrites⟩ := passEffects_relocated h.completes.2.2 hj
      exact .inr ⟨written, hwrites, hpath⟩
  have hend : t.tree.Own path := by
    rw [ht]
    refine own_runAll hname hfetched.1 (fun e he => ?_) hwritten
    refine (h.effect_files hname hstands he).imp_right ?_
    rintro ⟨written, rfl, hpath⟩
    exact ⟨written, rfl, hpath, h.readable written he hpath⟩
  rw [hpass]
  exact hend

theorem hydrated (hhydrate : ⟨path, .hydrate⟩ ∈ (r.passPlan w).plan.actions) :
    (r.left w).liveHash path = some hash ∧ ∃ record,
      (w.passFetching r fetches).device.Agreed path hash record ∧
        (w.passFetching r fetches).tree.HoldsReal path hash := by
  have hplans : ∀ kind, ⟨path, kind⟩ ∈ (r.passPlan w).plan.actions → kind = .hydrate := by
    intro kind hmem
    have hhydrate' := hhydrate
    simp only [passPlan, planFrom, mem_sortActions] at hmem hhydrate'
    obtain ⟨hfirst, hlosers⟩ := foldl_addRelocation_hydrate hhydrate'
    have hdecided := mem_reconcileWith.mp (foldl_addRelocation_other
      (fun c hc => ⟨(h.spares.clears hname).copies c hc, hlosers c hc⟩) hmem)
    exact Option.some.inj (hdecided.symm.trans (mem_reconcileWith.mp hfirst))
  have hstays : ⟨path, .relocate⟩ ∉ (r.passPlan w).plan.actions := fun hmem => by
    cases hplans _ hmem
  refine ⟨h.left_unmoved hname hstands hstays, ?_⟩
  obtain ⟨d, hj⟩ : ∃ d, (⟨path, .hydrate⟩, .downloaded d) ∈ r.events.joined := by
    have hmem : ⟨path, .hydrate⟩ ∈ (r.resumedPlan w).actions := by
      simp only [resumedPlan, dropResumed, List.mem_filter]
      exact ⟨hhydrate, by simp⟩
    obtain ⟨outcome, hj⟩ := h.answers.mem.mpr ⟨hmem, by simp⟩
    have hfits := h.answers.fits _ hj
    cases outcome with
    | downloaded d => exact ⟨d, hj⟩
    | failed error => exact absurd hj (h.succeeds _ error)
    | uploaded | deferred | relocated => simp [Outcome.fits] at hfits
  obtain ⟨f, hf, entry, haction, -, -, hentry, -⟩ := h.transfers.done _ _ hj
  have hreal : (r.fetched w fetches).HoldsReal path hash :=
    h.spares.fetchAll_own hname hf (by rw [haction]) hentry
  have heffects : ∀ e ∈ r.effects w,
      e.LeavesAlone ((r.fetched w fetches).HoldsReal path hash) path hash :=
    fun e he => h.spares.effects hname h.transfers hplans he
  have hrecorded : recorded (r.effects w) path ≠ none :=
    passEffects_joined h.completes.2.2 hj (.inr (.inr ⟨d, rfl⟩))
  obtain ⟨t, ht, hpass⟩ := h.completes.fetching fetches
  obtain ⟨record, hagreed⟩ : ∃ record, t.device.Agreed path hash record := by
    rw [ht]
    exact agreed_runAll heffects hrecorded
  obtain ⟨hnone, -⟩ := h.found hname hstands
  have hunscanned := localHash_eq_none.mp hnone
  obtain ⟨record', hscanned, -⟩ := recordScan_agreed
    (fun e he hpath => absurd hpath (hunscanned e he)) hagreed
  rw [hpass]
  refine ⟨record', hscanned, ?_⟩
  obtain ⟨hfile, -⟩ := files_runAll { r.planned w with tree := r.fetched w fetches }
    r.events.unix hname fun e he => (heffects e he).sparesFiles
  rw [ht]
  exact hreal.congr hfile

theorem stranded (hstrands : r.Strands path stub) :
    (w.passFetching r fetches).tree.Stands path stub ∧ (r.left w).liveHash path = some hash := by
  have hnot : ∀ kind, ⟨path, kind⟩ ∉ (r.passPlan w).plan.actions := by
    intro kind hmem
    rcases h.planned hname hstands hmem with ⟨hown, -⟩ | ⟨-, -, hlive⟩
    · exact hstrands.1 hown
    · exact hlive hstrands.2
  constructor
  · obtain ⟨t, ht, hpass⟩ := h.completes.fetching fetches
    rw [hpass, ht]
    have hspares : ∀ e ∈ r.effects w, e.SparesFiles path := by
      intro e he
      rcases h.effect_files hname hstands he with hspares | ⟨written, rfl, hpath⟩
      · exact hspares
      · have hplaced : Placed (r.passPlan w).plan.actions r.events written.path :=
          passEffects_origin he
        rw [hpath] at hplaced
        rcases h.placed hname hstands hplaced with hmem | hmem
        · exact absurd hmem (hnot _)
        · exact absurd hmem (hnot _)
    obtain ⟨hfile, hstub⟩ := files_runAll { r.planned w with tree := r.fetched w fetches }
      r.events.unix hname hspares
    exact (h.fetched_stands hname hstands (hnot _)).congr hfile hstub
  · exact h.left_unmoved hname hstands (hnot _)

end Round.Quiet

end Mended

/-- The passes that follow, and what a reader of the log finds after each. -/
def goesOn (s : World × Manifest) (pass : Round × List Fetch) : Option (World × Manifest) :=
  some (s.1.passFetching pass.1 pass.2, pass.1.left s.1)

/-- The pass reads of the path what the last one has left of it, and nothing goes wrong. -/
def Unhindered (path : String) (s : World × Manifest) (pass : Round × List Fetch) : Prop :=
  ∃ hash, s.2.liveHash path = some hash ∧ pass.1.Quiet s.1 pass.2 path hash

/-- A placeholder at the path of a live version is that of an evicted file. -/
def Restored (path : String) (s : World × Manifest) : Prop :=
  ∀ hash, s.2.liveHash path = some hash → s.1.tree[path]? = none →
    s.1.tree[stubRel path]? ≠ none → s.1.EvictedAt path hash

def Mended (path : String) (s : World × Manifest) : Prop :=
  ∃ hash, s.2.liveHash path = some hash ∧ (s.1.EvictedAt path hash ∨
    ∃ record, s.1.device.Agreed path hash record ∧ s.1.tree.HoldsReal path hash)

section Runs

variable {w : World} {r : Round} {fetches : List Fetch} {path : String} {hash : ContentHash}
  {stub : StubMeta} {s t : World × Manifest} {pass : Round × List Fetch}

theorem Mended.restored (h : Mended path s) : Restored path s := by
  intro hash hlive habsent _
  obtain ⟨other, hother, hmended⟩ := h
  cases hlive.symm.trans hother
  rcases hmended with hevicted | ⟨_, -, file, hfile, -⟩
  · exact hevicted
  · rw [habsent] at hfile
    cases hfile

theorem World.Recoverable.evictedAt {record : FileRecord}
    (hagreed : w.device.Agreed path hash record) (hevicted : record.isEvicted = true)
    (hstub : w.tree.HoldsStub path hash) : w.EvictedAt path hash := by
  obtain ⟨hrow, hsynced, -⟩ := hagreed
  obtain ⟨habsent, file, stub, hfile, hread, hpath, -⟩ := hstub
  have hstatus : w.device.files.status path = some (some hash, true) := by
    rw [Baseline.status, hrow, Option.map_some, hsynced, hevicted]
  refine ⟨hstatus, ⟨stub, ⟨habsent, ?_⟩, hpath⟩, fun entries remote view found hnone hlive
    hfound hown hwants => hydrates_of_status hstatus hnone hlive hfound hown hwants⟩
  rw [hfile, Option.bind_some, hread]

theorem Round.Quiet.mended (h : r.Quiet w fetches path hash) (hname : Mirrorable path)
    (hstands : w.tree.Stands path stub) (hkept : ¬ r.Strands path stub) :
    Mended path (w.passFetching r fetches, r.left w) := by
  by_cases hhydrate : ⟨path, .hydrate⟩ ∈ (r.passPlan w).plan.actions
  · obtain ⟨hleft, hreal⟩ := h.hydrated hname hstands hhydrate
    exact ⟨hash, hleft, .inr hreal⟩
  · obtain ⟨other, hleft⟩ : ∃ other, (r.left w).liveHash path = some other := by
      rw [h.left_standing hname hstands]
      cases landed r.events.joined path with
      | none => exact ⟨hash, rfl⟩
      | some sent => exact ⟨sent, rfl⟩
    exact ⟨other, hleft, .inl (h.evicted hname hstands hhydrate hkept hleft)⟩

theorem Round.Quiet.keeps_file (h : r.Quiet w fetches path hash) (hname : Mirrorable path)
    {record : FileRecord} (hagreed : w.device.Agreed path hash record)
    (hreal : w.tree.HoldsReal path hash) : Mended path (w.passFetching r fetches, r.left w) := by
  have hnothing := (h.spares.real hname hagreed hreal).2
  have hleft : (r.left w).liveHash path = some hash := by
    rw [h.left_eq hname (hnothing _), h.landed_none (hnothing _) (hnothing _)]
    rfl
  have hrecoverable : w.Recoverable path hash := ⟨record, hagreed, .inl hreal⟩
  obtain ⟨record', hagreed', hreal' | ⟨hevicted, hstub⟩⟩ :=
    hrecoverable.passFetching hname h.spares h.finds h.transfers
  · exact ⟨hash, hleft, .inr ⟨record', hagreed', hreal'⟩⟩
  · exact ⟨hash, hleft, .inl (World.Recoverable.evictedAt hagreed' hevicted hstub)⟩

theorem Mended.step (h : Mended path s) (hname : Mirrorable path)
    (hguard : Unhindered path s pass) (hstep : goesOn s pass = some t) : Mended path t := by
  cases hstep
  obtain ⟨hash, hlive, hquiet⟩ := hguard
  obtain ⟨other, hother, hmended⟩ := h
  cases hlive.symm.trans hother
  rcases hmended with ⟨-, ⟨stub, hstands, hown⟩, -⟩ | ⟨record, hagreed, hreal⟩
  · exact hquiet.mended hname hstands fun hstrands => hstrands.1 hown
  · exact hquiet.keeps_file hname hagreed hreal

end Runs

/-- Wherever a crash has left the device, passes in which nothing goes wrong make every placeholder
at the path of a live version that of an evicted file, from the first of them on, exactly if it does
not name another path that has none. -/
theorem placeholder_restored_iff {w : World} {r : Round} {fetches : List Fetch} {path : String}
    {hash : ContentHash} {stub : StubMeta} (hname : Mirrorable path)
    (hquiet : r.Quiet w fetches path hash) (hstands : w.tree.Stands path stub) :
    (∀ passes s, Runs goesOn (Unhindered path) (w.passFetching r fetches, r.left w) passes s →
      Restored path s) ↔ ¬ r.Strands path stub := by
  constructor
  · intro hrestored hstrands
    obtain ⟨hstill, hleft⟩ := hquiet.stranded hname hstands hstrands
    have hthere : (w.passFetching r fetches).tree[stubRel path]? ≠ none := by
      intro hnone
      have hread := hstill.2
      rw [hnone] at hread
      cases hread
    have hevicted := hrestored [] _ (.refl _) hash hleft hstill.1 hthere
    obtain ⟨own, hown, hpath⟩ := hevicted.names
    have hsame : own = stub := Option.some.inj (hown.2.symm.trans hstill.2)
    exact hstrands.1 (hsame ▸ hpath)
  · intro hkept passes s hrun
    have hmended := hrun.invariant (I := Mended path) (hquiet.mended hname hstands hkept)
      fun _ _ _ h hguard hstep => h.step hname hguard hstep
    exact hmended.restored

def creating (reaches : ℕ) : Round :=
  { readingAgain (.sample "a" "tablet" 1 10 none) with
    options := ⟨fun _ => false, ⟨[], [], true⟩, []⟩
    reaches }

/-- The placeholder has been written and not recorded. -/
def crashedCreating : World := freshDevice.pass (creating 1)

theorem creating_quiet : (creating 9).Quiet crashedCreating [] "a" 10 := by
  refine ⟨by decide +kernel, answers_of_check (by decide +kernel) (by decide +kernel), ?_,
    ⟨by decide +kernel, List.forall_mem_nil _, ?_⟩, List.forall_mem_nil _, ?_, by decide +kernel, ?_⟩
  · exact fun _ _ hmem => absurd hmem List.not_mem_nil
  · exact fun _ _ hmem => absurd hmem List.not_mem_nil
  · exact readingAgain_leavesAlone (.sample "a" "tablet" 1 10 none) rfl rfl (by decide +kernel)
      (by decide +kernel) rfl rfl (by decide +kernel)
  · intro stub hmem _
    have hfits : ((creating 9).effects crashedCreating).all (fun e =>
        match e with
        | .writePlaceholder written => decide (written.textLen ≤ maxStubLen)
        | _ => true) = true := by decide +kernel
    exact of_decide_eq_true (List.all_eq_true.mp hfits _ hmem)

theorem placeholder_restored_created : (crashedCreating.pass (creating 9)).EvictedAt "a" 10 := by
  have hfile : (crashedCreating.tree["a"]?).isNone = true := by decide +kernel
  have hstub : (crashedCreating.tree[stubRel "a"]?.bind DiskFile.stub).map StubMeta.path =
      some "a" := by decide +kernel
  obtain ⟨stub, hread, hpath⟩ := Option.map_eq_some_iff.mp hstub
  have hstands : crashedCreating.tree.Stands "a" stub := ⟨Option.isNone_iff_eq_none.mp hfile, hread⟩
  have hrestored := (placeholder_restored_iff mirrorable_a creating_quiet hstands).mpr
    (fun hstrands => hstrands.1 hpath) [] _ (.refl _)
  have habsent : ((crashedCreating.pass (creating 9)).tree["a"]?).isNone = true := by
    decide +kernel
  have hthere : ((crashedCreating.pass (creating 9)).tree[stubRel "a"]?).isSome = true := by
    decide +kernel
  exact hrestored 10 (by decide +kernel) (Option.isNone_iff_eq_none.mp habsent)
    (Option.isSome_iff_ne_none.mp hthere)

/-- The placeholder of "a" has been moved to "b". The delta of "b" and the tombstone of "a" are
logged together, and the pass ends there. -/
def crashedMoving : World := (movedDevice ∅).pass { meeting relocationDone with reaches := 1 }

/-- A pass over what is logged, with these paths to be hydrated. -/
def rereading (w : World) (hydrate : List String) : Round :=
  { readingAgain (.sample "a" "laptop" 1 10 none) with
    options := ⟨fun _ => false, ⟨[], [], false⟩, hydrate⟩
    deltas := w.logged
    reaches := 9 }

/-- The next pass completes, and "b" has a live version and a placeholder that still names "a". There
is no row for it, and asking for its bytes plans nothing. -/
theorem placeholder_stranded_moving :
    (crashedMoving.logged.map fun d => (d.path, d.deleted)) = [("b", false), ("a", true)] ∧
    (rereading crashedMoving []).Completes crashedMoving ∧
    (rereading crashedMoving []).events.joined = [] ∧
    ((rereading crashedMoving []).passPlan crashedMoving).plan.actions = [⟨"a", .deleteLocal⟩] ∧
    ((rereading crashedMoving []).left crashedMoving).liveHash "b" = some 10 ∧
    ((crashedMoving.pass (rereading crashedMoving [])).tree[stubRel "b"]?.bind
      DiskFile.stub).map StubMeta.path = some "a" ∧
    (crashedMoving.pass (rereading crashedMoving [])).device.files.status "b" = none ∧
    ((rereading crashedMoving ["b"]).passPlan
      (crashedMoving.pass (rereading crashedMoving []))).plan.actions = [] := by
  refine ⟨?_, ?_, ?_, ?_, ?_, ?_, ?_, ?_⟩
  · decide +kernel
  · decide +kernel
  · rfl
  · decide +kernel
  · decide +kernel
  · decide +kernel
  · decide +kernel
  · decide +kernel

end FileMirror
