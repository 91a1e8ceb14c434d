import FileMirror.LocalWrites
import FileMirror.Recreation
import FileMirror.Transitions

set_option autoImplicit false

namespace FileMirror

open Transitions

def Baseline.RowsAre (Q : String → Bool → Prop) (b : Baseline) : Prop :=
  ∀ (path : String) (row : FileRecord), b[path]? = some row → Q path row.isEvicted

section Rows

variable {Q : String → Bool → Prop} {s : DeviceState} {w t : World} {now : String → ℕ}

theorem Baseline.RowsAre.insert {b : Baseline} {path : String} {row : FileRecord}
    (h : b.RowsAre Q) (hrow : Q path row.isEvicted) : Baseline.RowsAre Q (b.insert path row) := by
  intro other found hfound
  rw [StringMap.getElem?_insert] at hfound
  split_ifs at hfound with hpath
  · cases hfound
    exact hpath ▸ hrow
  · exact h other found hfound

theorem Baseline.RowsAre.updateRow {path : String} {f : FileRecord → FileRecord}
    (h : s.files.RowsAre Q) (hf : ∀ row, s.files[path]? = some row → Q path (f row).isEvicted) :
    (s.updateRow path f).files.RowsAre Q := by
  unfold DeviceState.updateRow
  cases hrow : s.files[path]? with
  | none => exact h
  | some row => exact h.insert (hf row hrow)

theorem Baseline.RowsAre.recordScan {entries : List LocalEntry} (h : s.files.RowsAre Q)
    (hentries : ∀ entry ∈ entries, Q entry.path false) :
    (s.recordScan entries).files.RowsAre Q := by
  unfold DeviceState.recordScan
  induction entries generalizing s with
  | nil => exact h
  | cons entry entries ih =>
      rw [List.foldl_cons]
      apply ih
      · exact h.insert (hentries entry List.mem_cons_self)
      · exact fun other hother => hentries other (List.mem_cons_of_mem _ hother)

def Effect.Rows (Q : String → Bool → Prop) : Effect → Prop
  | .confirmSync path _ _ _ => Q path false
  | .confirmPlaceholder path _ _ => Q path true
  | _ => True

theorem Baseline.RowsAre.runAll {es : List Effect} (h : w.device.files.RowsAre Q)
    (hes : ∀ e ∈ es, e.Rows Q) : (es.foldl (World.run now) w).device.files.RowsAre Q := by
  induction es generalizing w with
  | nil => exact h
  | cons e es ih =>
      rw [List.foldl_cons]
      refine ih ?_ fun other hother => hes other (List.mem_cons_of_mem _ hother)
      have he := hes e List.mem_cons_self
      cases e with
      | confirmSync path size mtimeNs hash => exact h.insert he
      | confirmPlaceholder path size hash => exact h.insert he
      | removeRow path =>
          intro other row hrow
          simp only [World.run, DeviceState.remove, StringMap.getElem?_erase] at hrow
          split_ifs at hrow
          exact h other row hrow
      | recordHydrated path => exact h.updateRow fun row hrow => h path row hrow
      | _ => exact h

theorem Baseline.RowsAre.pass {r : Round} (h : w.device.files.RowsAre Q)
    (heffects : ∀ e ∈ (r.effects w).take r.reaches, e.Rows Q)
    (hscan : ∀ entry ∈ (r.passPlan w).scan.entries, Q entry.path false) :
    (w.pass r).device.files.RowsAre Q := by
  have hpreserved : (r.preserved w).state.files.RowsAre Q :=
    fun path row hrow => h path row (preserveLoop_row hrow)
  have hplanned : (r.planned w).device.files.RowsAre Q := hpreserved
  have hrun : (((r.effects w).take r.reaches).foldl (World.run r.events.unix)
      (r.planned w)).device.files.RowsAre Q := hplanned.runAll heffects
  unfold World.pass
  split_ifs
  · exact hrun.recordScan hscan
  · exact hrun
  · exact hpreserved

end Rows

/-- Every file has a path that `safe_join` lets through. -/
def LocalTree.Below (tree : LocalTree) : Prop :=
  ∀ rel file, tree[rel]? = some file → (safeJoin rel).isSome

section Trees

variable {tree : LocalTree} {source target path : String} {file : DiskFile}

theorem LocalTree.Below.insert (h : tree.Below) (hpath : (safeJoin path).isSome) :
    LocalTree.Below (tree.insert path file) := by
  intro rel found hfound
  rw [StringMap.getElem?_insert] at hfound
  split_ifs at hfound with hrel
  · exact hrel ▸ hpath
  · exact h rel found hfound

theorem LocalTree.Below.erase (h : tree.Below) : LocalTree.Below (tree.erase path) := by
  intro rel found hfound
  rw [StringMap.getElem?_erase] at hfound
  split_ifs at hfound
  exact h rel found hfound

theorem LocalTree.Below.rename (h : tree.Below) (htarget : (safeJoin target).isSome) :
    (tree.rename source target).Below := by
  unfold LocalTree.rename
  cases tree[source]? with
  | none => exact h
  | some found => exact h.erase.insert htarget

theorem preserveLoop_below {baseline : Baseline} {conflicts : List (RemoteConflict × String)}
    {p : Preserving} (h : p.tree.Below) : (preserveLoop baseline conflicts p).1.tree.Below := by
  induction conflicts generalizing p with
  | nil => exact h
  | cons c conflicts ih =>
      rw [preserveLoop]
      cases hone : preserveOne c.2 baseline p c.1 with
      | none => exact h
      | some p' =>
          apply ih
          obtain ⟨rfl, -⟩ | ⟨-, rfl⟩ | ⟨source, target, hrenames, rfl⟩ := preserveOne_cases hone
          · exact h
          · exact h
          · exact h.rename (safeJoin_joined hrenames.copied)

theorem removeStale_below {options : PassOptions} {device : DeviceState} (h : tree.Below) :
    (removeStale options device tree).Below := by
  unfold removeStale
  dsimp only
  generalize List.filter _ _ = stale
  induction stale generalizing tree with
  | nil => exact h
  | cons path stale ih => exact ih h.erase

end Trees

/-- `placeholder::write` ends the pass where it cannot join the path, before the row is recorded. -/
def Effect.Joins : Effect → Prop
  | .writePlaceholder stub => (safeJoin (stubRel stub.path)).isSome
  | .confirmPlaceholder path _ _ => (safeJoin (stubRel path)).isSome
  | _ => True

/-- A snapshot is read by its entries' paths, only spawned transfers are joined, and the pass ends
where a placeholder is refused. -/
structure Round.Lawful (r : Round) (w : World) : Prop where
  keys : r.snapshot.KeysMatch
  joined : ∀ j ∈ r.events.joined, j.1 ∈ (r.passPlan w).plan.actions
  reached : ∀ e ∈ (r.effects w).take r.reaches, e.Joins

def Lawful (w : World) : Deed → Prop
  | .files tree => tree.Below
  | .pass r => r.Lawful w
  | .markEvicted path => (safeJoin path).isSome
  | .markLocal _ => True

structure World.Housed (w : World) : Prop where
  tree : w.tree.Below
  rows : w.device.files.RowsAre fun path evicted =>
    evicted = true → (safeJoin (stubRel path)).isSome

theorem stubRel_joined {path : String} (h : (safeJoin path).isSome) :
    (safeJoin (stubRel path)).isSome := by
  obtain ⟨hinside, hdot⟩ := safeJoin_isSome_iff.mp h
  obtain ⟨last, hpath, hstub⟩ := parts_stubRel path
  have hlong : ∀ text : List Char, text.length < 4 → last ++ stubSuffix ≠ text := by
    rintro text hlength rfl
    have hsuffix : stubSuffix.length = 4 := by decide +kernel
    rw [List.length_append, hsuffix] at hlength
    omega
  rw [safeJoin_isSome_iff]
  cases hdir : (parts path).dropLast with
  | nil =>
      rw [hdir, List.nil_append] at hstub
      refine ⟨⟨?_, ?_⟩, ?_⟩
      · intro habsolute
        obtain ⟨name, rest, hparts⟩ := absolute_iff.mp habsolute
        rw [hstub] at hparts
        cases (List.cons.inj hparts).2
      · rw [hstub]
        exact fun hparent => hlong _ (by decide) (List.mem_singleton.mp hparent).symm
      · rw [hstub]
        exact fun hhead => hlong _ (by decide) (Option.some.inj hhead)
  | cons first others =>
      rw [hdir] at hstub hpath
      refine ⟨⟨?_, ?_⟩, ?_⟩
      · intro habsolute
        obtain ⟨name, rest, hparts⟩ := absolute_iff.mp habsolute
        rw [hstub] at hparts
        have hfirst := (List.cons.inj hparts).1
        obtain ⟨second, tail, hsecond⟩ : ∃ second tail, others ++ [last] = second :: tail :=
          List.exists_cons_of_ne_nil (by simp)
        exact hinside.1 (absolute_iff.mpr
          ⟨second, tail, by rw [hpath, hfirst, List.cons_append, hsecond]⟩)
      · rw [hstub]
        intro hparent
        cases List.mem_append.mp hparent with
        | inl hmem =>
            apply hinside.2
            rw [hpath]
            exact List.mem_append_left _ hmem
        | inr hend => exact hlong _ (by decide) (List.mem_singleton.mp hend).symm
      · rw [hstub]
        intro hhead
        apply hdot
        rw [hpath]
        exact hhead

section Scanned

variable {r : Round} {w : World} {path : String} {kind : ActionKind}

theorem excluded_state {ignored : String → Bool} {rel : String} (h : excluded ignored rel = false) :
    stateDir ∉ parts rel := by
  intro hmem
  have hany : (parts rel).any (fun part => String.ofList part ∈ alwaysExclude) = true :=
    List.any_eq_true.mpr ⟨stateDir, hmem, by decide +kernel⟩
  unfold excluded at h
  rw [Bool.or_eq_false_iff] at h
  unfold parts at hany
  rw [h.1] at hany
  cases hany

theorem not_hidden (h : stateDir ∉ parts path) : ¬ Hidden path := by
  rintro ⟨name, rest, hparts⟩
  rw [hparts] at h
  exact h List.mem_cons_self

theorem not_inState (h : stateDir ∉ parts path) : ¬ InState path := by
  rintro ⟨name, rest, hcomponents⟩
  have hmem : stateDir ∈ components path := by
    rw [hcomponents]
    exact List.mem_cons_self
  exact h (List.mem_filter.mp hmem).1

theorem Round.scanned {entry : LocalEntry} (h : entry ∈ (r.passPlan w).scan.entries) :
    stateDir ∉ parts entry.path ∧ ∃ file, (r.preserved w).tree[entry.path]? = some file := by
  obtain ⟨file, hwalk, hentry⟩ := mem_scan_entries.mp h
  obtain ⟨hfile, hexcluded⟩ := mem_walk.mp hwalk
  rw [scanFile_entry hentry]
  exact ⟨excluded_state hexcluded, file.2, hfile⟩

theorem stubFor_seen {ignored : String → Bool} {tree : LocalTree} {stub : StubMeta}
    (h : stubFor ignored tree path = some stub) :
    ¬ Hidden path ∧ ∃ file, tree[stubRel path]? = some file := by
  unfold stubFor at h
  split_ifs at h with hseen
  obtain ⟨file, hfile, -⟩ := Option.bind_eq_some_iff.mp h
  refine ⟨?_, file, hfile⟩
  have hstub := excluded_state (Bool.not_eq_true _ ▸ (not_or.mp hseen).2)
  rintro ⟨name, rest, hparts⟩
  obtain ⟨last, -, hcut⟩ := parts_stubRel path
  rw [hparts, List.dropLast_cons_cons] at hcut
  rw [hcut] at hstub
  exact hstub List.mem_cons_self

theorem Round.placeholder_seen {stub : StubMeta}
    (h : (r.view w).placeholders[path]? = some stub) :
    ¬ Hidden path ∧ ∃ file, (r.preserved w).tree[stubRel path]? = some file := by
  obtain ⟨hstub, -⟩ := dropStale_eq_some.mp h
  rw [scan_placeholders] at hstub
  exact stubFor_seen hstub

end Scanned

/-- The log, the pending uploads and what this device has lost of the log name nothing in the state
directory that the pass would act on. -/
structure Round.SparesState (r : Round) (w : World) : Prop where
  live : ∀ path, Hidden path → r.merged.manifest.liveHash path = none
  losers : ∀ c ∈ r.conflicts, c.1.loser.deviceId = w.device.deviceId → ¬ Hidden c.1.loser.path
  uploads : ∀ u ∈ r.events.uploads, ¬ Hidden u.1.path

abbrev World.Apart (w : World) : Prop := w.device.files.RowsAre fun path _ => ¬ Hidden path

section Planned

variable {r : Round} {w t : World} {path : String} {kind : ActionKind} {place : Place}

theorem foldl_addRelocation_from {plan : Plan} {relocations : List (String × DeltaEntry)}
    {a : Action} (h : a ∈ (relocations.foldl addRelocation plan).actions) :
    (∃ x ∈ relocations, a.path = x.1) ∨ ∃ kind, ⟨a.path, kind⟩ ∈ plan.actions := by
  induction relocations generalizing plan with
  | nil => exact .inr ⟨a.kind, h⟩
  | cons x relocations ih =>
      rcases ih h with ⟨y, hy, hpath⟩ | ⟨kind, hmem⟩
      · exact .inl ⟨y, List.mem_cons_of_mem _ hy, hpath⟩
      · unfold addRelocation at hmem
        cases List.mem_append.mp hmem with
        | inl hmapped =>
            obtain ⟨b, hb, hsame⟩ := List.mem_map.mp hmapped
            right
            split_ifs at hsame
            · rw [Action.mk.injEq] at hsame
              exact ⟨b.kind, hsame.1 ▸ hb⟩
            · exact ⟨kind, hsame ▸ hb⟩
        | inr hnew =>
            rw [List.mem_singleton, Action.mk.injEq] at hnew
            exact .inl ⟨x, List.mem_cons_self, hnew.1⟩

theorem Round.SparesState.action (h : r.SparesState w) (hrows : w.Apart)
    (hmem : ⟨path, kind⟩ ∈ (r.passPlan w).plan.actions) : ¬ Hidden path := by
  intro hhidden
  simp only [passPlan, planFrom, mem_sortActions] at hmem
  rcases foldl_addRelocation_from hmem with ⟨x, hx, hcopy⟩ | ⟨kind, hplanned⟩
  · rcases preserveLoop_relocations (Prod.eta _).symm hx with hnil | hlost
    · cases hnil
    · obtain ⟨c, hc, hloser, hown, -, hpath⟩ := hlost
      have hsame : path = copyPath c.2 w.device.deviceName x.2.path := hcopy.trans hpath.symm
      rw [hsame, ← hloser] at hhidden
      rw [← hloser] at hown
      exact h.losers c hc hown (hidden_of_copyPath hhidden)
  · have hdecided := mem_reconcileWith.mp hplanned
    have hlocal : localHash (r.passPlan w).scan.entries path = none := by
      rw [localHash_eq_none]
      rintro entry hentry rfl
      exact not_hidden (scanned hentry).1 hhidden
    have hplaceholder : (r.view w).placeholders[path]? = none := by
      cases hstub : (r.view w).placeholders[path]? with
      | none => rfl
      | some stub => exact absurd hhidden (placeholder_seen hstub).1
    have hrow : (r.preserved w).state.files[path]? = none := by
      cases hfound : (r.preserved w).state.files[path]? with
      | none => rfl
      | some row => exact absurd hhidden (hrows path row (preserveLoop_row hfound))
    have hnone : (planPath (r.passPlan w).scan.entries (r.preserved w).state.files r.merged.manifest
        (r.view w) path).1 = none := by
      simp only [planPath, hlocal, hplaceholder, hrow, h.live path hhidden, Baseline.lastSynced]
      rfl
    exact absurd (hdecided.symm.trans hnone) (by simp)

theorem planPath_deletes {entries : List LocalEntry} {baseline : Baseline} {remote : Manifest}
    {view : ResidencyView} (hlocal : localHash entries path = none)
    (hstub : view.placeholders[path]? = none)
    (h : (planPath entries baseline remote view path).1 = some .deleteLocal) :
    ∃ row, baseline[path]? = some row ∧ row.isEvicted = true := by
  unfold planPath at h
  simp only [hlocal, hstub, Option.isSome_none, Bool.false_eq_true, if_false] at h
  by_cases hevicted : baseline[path]?.any FileRecord.isEvicted = true
  · exact (Option.any_eq_true _ _).mp hevicted
  · rw [if_neg hevicted] at h
    have hkind : ∀ base there remoteHash,
        decideAction (classify none base) (classify there base) none remoteHash ≠
          some .deleteLocal := by
      intro base there remoteHash
      cases base with
      | none => cases there <;> simp [classify, decideAction]
      | some hash =>
          have hdeleted : classify none (some hash) = .deleted := rfl
          rw [hdeleted]
          generalize classify there (some hash) = change
          cases change <;> simp [decideAction]
    split at h
    · split_ifs at h
      · cases h
      · cases h
    · exact absurd h (hkind _ _ _)

theorem World.Housed.deletes (h : w.Housed)
    (hmem : ⟨path, .deleteLocal⟩ ∈ (r.passPlan w).plan.actions) :
    (safeJoin path).isSome ∧ stateDir ∉ parts path ∨ (safeJoin (stubRel path)).isSome := by
  have htree : (r.preserved w).tree.Below := preserveLoop_below h.tree
  rcases Round.of_mem_actions hmem with hkind | hplanned | hkind
  · cases hkind
  · by_cases hlocal : ∃ entry ∈ (r.passPlan w).scan.entries, entry.path = path
    · obtain ⟨entry, hentry, rfl⟩ := hlocal
      obtain ⟨hapart, file, hfile⟩ := Round.scanned hentry
      exact .inl ⟨htree _ file hfile, hapart⟩
    right
    have habsent : localHash (r.passPlan w).scan.entries path = none := by
      rw [localHash_eq_none]
      exact fun entry hentry hpath => hlocal ⟨entry, hentry, hpath⟩
    cases hstub : (r.view w).placeholders[path]? with
    | some stub =>
        obtain ⟨-, file, hfile⟩ := Round.placeholder_seen hstub
        exact htree _ file hfile
    | none =>
        obtain ⟨row, hrow, hevicted⟩ := planPath_deletes habsent hstub hplanned
        exact h.rows path row (preserveLoop_row hrow) hevicted
  · cases hkind

/-- A path that a transfer, an effect or a lost conflict of the pass is about, or a row it leaves. -/
inductive Round.ActsAt (r : Round) (w : World) : String → Prop where
  | planned (path : String) (kind : ActionKind) (h : ⟨path, kind⟩ ∈ (r.passPlan w).plan.actions) :
      r.ActsAt w path
  | lost (c : RemoteConflict × String) (h : c ∈ r.conflicts)
      (own : c.1.loser.deviceId = w.device.deviceId) : r.ActsAt w c.1.loser.path
  | kept (path : String) (h : ((w.pass r).device.files[path]?).isSome) : r.ActsAt w path

theorem Round.Lawful.placed (h : r.Lawful w)
    (hplaced : Placed (r.passPlan w).plan.actions r.events path) : r.ActsAt w path := by
  rcases hplaced with hcreate | hupdate | ⟨action, result, hjoined, rfl⟩
  · exact .planned _ _ hcreate
  · exact .planned _ _ hupdate
  · exact .planned _ action.kind (h.joined _ hjoined)

theorem Round.Lawful.entry {entry : DeltaEntry} (h : r.Lawful w)
    (hentry : (r.resumedManifest w)[path]? = some entry) : entry.path = path := by
  rcases resumedManifest_entry hentry with hmerged | ⟨upload, result, -, -, hpath⟩
  · exact mergeDeltas_keysMatch h.keys r.deltas path entry hmerged
  · exact hpath

theorem Action.places_follow {action : Action} (h : r.Lawful w)
    (hplace : place ∈ action.places (r.resumedManifest w)) : place.Follows action.path := by
  obtain ⟨path, kind⟩ := action
  cases hentry : (r.resumedManifest w)[path]? with
  | none =>
      unfold Action.places at hplace
      rw [hentry] at hplace
      cases kind with
      | relocate =>
          rw [List.mem_singleton.mp hplace]
          exact temp_follows
      | _ => cases hplace
  | some entry =>
      have hpath := h.entry hentry
      unfold Action.places at hplace
      rw [hentry] at hplace
      cases kind with
      | download => exact hpath ▸ downloadPlaces_follow hplace
      | hydrate =>
          cases List.mem_append.mp hplace with
          | inl hdownload => exact hpath ▸ downloadPlaces_follow hdownload
          | inr hstub => exact placeholderRemoves_follow hstub
      | relocate =>
          rw [List.mem_singleton.mp hplace]
          exact temp_follows
      | _ => cases hplace

theorem World.Housed.places_follow {evicted : List String} (h : w.Housed) (hlawful : r.Lawful w)
    (hplace : place ∈ r.places w evicted) :
    place.Inside ∧ (place.InState → ∃ path, Hidden path ∧ r.ActsAt w path) := by
  have hfollows : ∀ path, place.Follows path → r.ActsAt w path →
      place.Inside ∧ (place.InState → ∃ path, Hidden path ∧ r.ActsAt w path) :=
    fun path hplace hacts => ⟨hplace.1, fun hstate => ⟨path, hplace.2 hstate, hacts⟩⟩
  unfold Round.places at hplace
  rcases List.mem_append.mp hplace with hplace | hevict
  rcases List.mem_append.mp hplace with hplace | heffect
  rcases List.mem_append.mp hplace with hplace | haction
  rcases List.mem_append.mp hplace with hloser | hstale
  · obtain ⟨c, hc, hmem⟩ := List.mem_flatMap.mp hloser
    obtain ⟨hown, hpath⟩ := loserPlaces_follow hmem
    exact hfollows _ hpath (.lost c hc hown)
  · obtain ⟨path, hpath, hmem⟩ := List.mem_flatMap.mp hstale
    have hseen : ¬ Hidden path := by
      have hkey := Std.ExtTreeMap.mem_keys.mp (List.mem_filter.mp hpath).1
      obtain ⟨stub, hstub⟩ := Option.isSome_iff_exists.mp
        (Std.ExtTreeMap.isSome_getElem?_iff_mem.mpr hkey)
      rw [scan_placeholders] at hstub
      exact (stubFor_seen hstub).1
    have hremoved := placeholderRemoves_follow hmem
    exact ⟨hremoved.1, fun hstate => absurd (hremoved.2 hstate) hseen⟩
  · obtain ⟨action, haction, hmem⟩ := List.mem_flatMap.mp haction
    exact hfollows _ (Action.places_follow hlawful hmem) (.planned _ action.kind haction)
  · obtain ⟨e, he, hmem⟩ := List.mem_flatMap.mp heffect
    have horigin := passEffects_origin (List.mem_of_mem_take he)
    cases e with
    | writePlaceholder stub =>
        exact hfollows _ (placeholderWrites_follow hmem) (hlawful.placed horigin)
    | deleteLocal path =>
        have hplanned : ⟨path, .deleteLocal⟩ ∈ (r.passPlan w).plan.actions := horigin
        cases List.mem_append.mp hmem with
        | inl hfile =>
            rcases h.deletes hplanned with ⟨hjoined, hapart⟩ | hstub
            · unfold taken at hfile
              split_ifs at hfile
              · cases hfile
              rw [List.mem_singleton.mp hfile]
              exact ⟨(safeJoin_isSome_iff.mp hjoined).1,
                fun hstate => absurd hstate (not_inState hapart)⟩
            · exact hfollows _ (taken_follows hstub hfile) (.planned _ _ hplanned)
        | inr hstub =>
            exact hfollows _ (placeholderRemoves_follow hstub) (.planned _ _ hplanned)
    | setAside path target =>
        exact hfollows _ (setAside_follows horigin.2 hmem) (.planned _ _ horigin.1)
    | _ => cases hmem
  · obtain ⟨path, -, hmem⟩ := List.mem_flatMap.mp hevict
    obtain ⟨hrow, hpath⟩ := evictPlaces_follow hmem
    exact hfollows _ hpath (.kept path hrow)

end Planned

section Steps

variable {r : Round} {w t : World} {d : Deed} {place : Place}

theorem runAll_below {now : String → ℕ} {es : List Effect} (h : w.tree.Below)
    (hes : ∀ e ∈ es, e.Joins ∧ ∀ path target, e = .setAside path target → (safeJoin target).isSome) :
    (es.foldl (World.run now) w).tree.Below := by
  induction es generalizing w with
  | nil => exact h
  | cons e es ih =>
      rw [List.foldl_cons]
      refine ih ?_ fun other hother => hes other (List.mem_cons_of_mem _ hother)
      obtain ⟨hjoins, htarget⟩ := hes e List.mem_cons_self
      cases e with
      | writePlaceholder stub => exact h.insert hjoins
      | deleteLocal path => exact h.erase.erase
      | setAside path target => exact h.rename (htarget path target rfl)
      | _ => exact h

theorem World.Housed.pass (h : w.Housed) (hlawful : r.Lawful w) : (w.pass r).Housed := by
  constructor
  · have hpreserved : (r.preserved w).tree.Below := preserveLoop_below h.tree
    have hplanned : (r.planned w).tree.Below := removeStale_below hpreserved
    have hrun : (((r.effects w).take r.reaches).foldl (World.run r.events.unix)
        (r.planned w)).tree.Below := by
      apply runAll_below hplanned
      intro e he
      refine ⟨hlawful.reached e he, ?_⟩
      rintro path target rfl
      have horigin := passEffects_origin (List.mem_of_mem_take he)
      exact safeJoin_joined horigin.2
    unfold World.pass
    split_ifs
    · exact hrun
    · exact hrun
    · exact hpreserved
  · apply h.rows.pass
    · intro e he
      have hjoins := hlawful.reached e he
      cases e with
      | confirmSync path size mtimeNs hash => exact fun hevicted => nomatch hevicted
      | confirmPlaceholder path size hash => exact fun _ => hjoins
      | _ => trivial
    · exact fun _ _ hevicted => nomatch hevicted

theorem World.Housed.step (h : w.Housed) (hlawful : Lawful w d) (hstep : w.deed d = some t) :
    t.Housed := by
  cases d with
  | files tree =>
      cases hstep
      exact ⟨hlawful, h.rows⟩
  | pass r =>
      cases hstep
      exact h.pass hlawful
  | markEvicted path =>
      simp only [World.deed] at hstep
      split at hstep
      · cases hstep
      · split_ifs at hstep
        cases hstep
        exact ⟨h.tree, h.rows.updateRow fun _ _ _ => stubRel_joined hlawful⟩
  | markLocal path =>
      cases hstep
      exact ⟨h.tree, h.rows.updateRow fun _ _ hevicted => absurd hevicted Bool.false_ne_true⟩

theorem World.Apart.pass (h : w.Apart) (hlawful : r.Lawful w) (hspares : r.SparesState w) :
    (w.pass r).Apart := by
  have haction : ∀ path kind, ⟨path, kind⟩ ∈ (r.passPlan w).plan.actions → ¬ Hidden path :=
    fun path kind hmem => hspares.action h hmem
  apply Baseline.RowsAre.pass h
  · intro e he
    have horigin := passEffects_origin (List.mem_of_mem_take he)
    cases e with
    | confirmSync path size mtimeNs hash =>
        rcases horigin with ⟨result, hsent, -⟩ | ⟨action, result, hjoined, rfl, -⟩
        · rcases hsent with ⟨action, hjoined, rfl⟩ | ⟨upload, hupload, rfl⟩
          · exact haction _ action.kind (hlawful.joined _ hjoined)
          · exact hspares.uploads _ hupload
        · exact haction _ action.kind (hlawful.joined _ hjoined)
    | confirmPlaceholder path size hash =>
        rcases horigin with hcreate | hupdate | ⟨action, result, hjoined, rfl⟩
        · exact haction _ _ hcreate
        · exact haction _ _ hupdate
        · exact haction _ action.kind (hlawful.joined _ hjoined)
    | _ => trivial
  · exact fun entry hentry => not_hidden (Round.scanned hentry).1

def SparesState (w : World) (d : Deed) : Prop :=
  Lawful w d ∧ ∀ r, d = .pass r → r.SparesState w

theorem World.Apart.step (h : w.Apart) (hguard : SparesState w d) (hstep : w.deed d = some t) :
    t.Apart := by
  cases d with
  | files tree =>
      cases hstep
      exact h
  | pass r =>
      cases hstep
      exact h.pass hguard.1 (hguard.2 r rfl)
  | markEvicted path =>
      simp only [World.deed] at hstep
      split at hstep
      · cases hstep
      · split_ifs at hstep
        cases hstep
        exact Baseline.RowsAre.updateRow h fun row hrow => h path row hrow
  | markLocal path =>
      cases hstep
      exact Baseline.RowsAre.updateRow h fun row hrow => h path row hrow

structure World.Fresh (w : World) : Prop where
  tree : w.tree.Below
  rows : ∀ path : String, w.device.files[path]? = none

theorem World.Fresh.rowsAre {Q : String → Bool → Prop} (h : w.Fresh) : w.device.files.RowsAre Q := by
  intro path row hrow
  rw [h.rows] at hrow
  cases hrow

variable {w₀ : World} {deeds : List Deed}

/-- Whatever the log, the placeholders and the pending uploads say, no pass of a device writes a
path that is absolute or has a parent component. -/
theorem writes_inside_root (hw : w₀.Fresh) (hruns : Runs World.deed Lawful w₀ deeds w)
    (hlawful : r.Lawful w) {evicted : List String} (hplace : place ∈ r.places w evicted) :
    place.Inside := by
  have hhoused : w.Housed :=
    hruns.invariant ⟨hw.tree, hw.rowsAre⟩ fun _ _ _ h hguard hstep => h.step hguard hstep
  exact (hhoused.places_follow hlawful hplace).1

/-- While the log and the pending uploads name nothing in the state directory, every pass writes below
the root only, and nothing but its temporary files in the state directory. -/
theorem writes_stay_below_root (hw : w₀.Fresh) (hruns : Runs World.deed SparesState w₀ deeds w)
    (hguard : SparesState w (.pass r)) {evicted : List String} (hplace : place ∈ r.places w evicted) :
    place.Inside ∧ ¬ place.InState := by
  have hhoused : w.Housed := by
    refine hruns.invariant ⟨hw.tree, hw.rowsAre⟩ ?_
    exact fun _ _ _ h hguard hstep => h.step hguard.1 hstep
  have hapart : w.Apart := by
    refine hruns.invariant (I := World.Apart) hw.rowsAre ?_
    exact fun _ _ _ h hguard hstep => h.step hguard hstep
  have hspares := hguard.2 r rfl
  obtain ⟨hinside, hstate⟩ := hhoused.places_follow hguard.1 hplace
  refine ⟨hinside, fun hin => ?_⟩
  obtain ⟨path, hhidden, hacts⟩ := hstate hin
  cases hacts with
  | planned path kind hmem => exact hspares.action hapart hmem hhidden
  | lost c hc hown => exact hspares.losers c hc hown hhidden
  | kept path hrow =>
      obtain ⟨row, hrow⟩ := Option.isSome_iff_exists.mp hrow
      exact hapart.pass hguard.1 hspares path row hrow hhidden

section Witness

theorem freshDevice_fresh : freshDevice.Fresh := by
  constructor
  · rintro rel file hfile
    cases hfile
  · exact fun path => rfl

def versionA : DeltaEntry := .sample "a" "tablet" 1 10 none

/-- These versions are logged, and the pass gets no further than its plan. -/
def readingAll (versions : Manifest) : Round := { readingAgain versionA with snapshot := versions }

theorem readingAll_lawful {versions : Manifest} (h : versions.KeysMatch) (w : World) :
    (readingAll versions).Lawful w where
  keys := h
  joined _ hjoined := nomatch hjoined
  reached _ hreached := by
    change _ ∈ List.take 0 _ at hreached
    rw [List.take_zero] at hreached
    cases hreached

theorem readingAll_sparesState {versions : Manifest} (h : versions.KeysMatch)
    (hdirs : ∀ path version, versions[path]? = some version → stateDir ∉ parts path) (w : World) :
    SparesState w (.pass (readingAll versions)) := by
  refine ⟨readingAll_lawful h w, ?_⟩
  rintro _ ⟨⟩
  refine ⟨?_, ?_, ?_⟩
  · intro path hhidden
    change versions.liveHash path = none
    unfold Manifest.liveHash
    cases hversion : versions[path]? with
    | none => rfl
    | some version => exact absurd hhidden (not_hidden (hdirs path version hversion))
  · exact fun c hc => nomatch hc
  · exact fun u hu => nomatch hu

def versionB : DeltaEntry := .sample "d/b" "laptop" 2 11 none

def twoVersions : Manifest := ((∅ : Manifest).insert "a" versionA).insert "d/b" versionB

def ownFile : LocalTree := (∅ : LocalTree).insert "c" ⟨⟨1, 5⟩, 3, true, none⟩

theorem writes_stay_below_root_several :
    (∀ place ∈ (readingAll twoVersions).places
        (World.pass { freshDevice with tree := ownFile } (readingAll twoVersions)) [],
      place.Inside ∧ ¬ place.InState) ∧
    ∀ path ∈ ["a", "d/b"], Place.named path ∈ (readingAll twoVersions).places
      (World.pass { freshDevice with tree := ownFile } (readingAll twoVersions)) [] := by
  have hkeys : twoVersions.KeysMatch := (Manifest.KeysMatch.empty.insert versionA).insert versionB
  have hdirs : ∀ path version, twoVersions[path]? = some version → stateDir ∉ parts path := by
    intro path version hversion
    simp only [twoVersions, StringMap.getElem?_insert] at hversion
    split_ifs at hversion with hfirst hsecond
    · subst hfirst
      decide +kernel
    · subst hsecond
      decide +kernel
    · simp at hversion
  have hspares := fun w => readingAll_sparesState hkeys hdirs w
  have hbelow : ownFile.Below := freshDevice_fresh.tree.insert (by decide +kernel)
  have hruns : Runs World.deed SparesState freshDevice
      [.files ownFile, .pass (readingAll twoVersions)]
      (World.pass { freshDevice with tree := ownFile } (readingAll twoVersions)) :=
    .next ⟨hbelow, nofun⟩ rfl (.next (hspares _) rfl (.refl _))
  exact ⟨fun place hplace => writes_stay_below_root freshDevice_fresh hruns (hspares _) hplace,
    by decide +kernel⟩

/-- Another device has logged a version of the saved passphrase. -/
def planted : DeltaEntry := .sample ".mirror/passphrase" "laptop" 1 10 none

/-- The first pass of a device downloads it into the state directory. -/
theorem state_directory_written :
    freshDevice.Fresh ∧ (readingAgain planted).Lawful freshDevice ∧
      Place.named ".mirror/passphrase" ∈ (readingAgain planted).places freshDevice [] ∧
      (Place.named ".mirror/passphrase").InState := by
  refine ⟨freshDevice_fresh, readingAll_lawful (Manifest.KeysMatch.empty.insert planted) _,
    by decide +kernel, ?_⟩
  exact ⟨"passphrase".toList, [], by decide +kernel⟩

end Witness

end Steps

end FileMirror
