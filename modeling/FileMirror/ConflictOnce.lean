import FileMirror.ConflictOutlives
import FileMirror.DeviceRuns

set_option autoImplicit false

namespace FileMirror

open Transitions

def LocalTree.Lacks (t : LocalTree) (path : String) (hash : ContentHash) : Prop :=
  ∀ file, t[path]? = some file → file.contents ≠ hash

/-- The losing content is not at the path, neither in a file nor as the version last synced. -/
structure World.Rid (w : World) (loser : DeltaEntry) : Prop where
  tree : w.tree.Lacks loser.path loser.plaintextHash
  row : w.device.files.lastSynced loser.path ≠ some loser.plaintextHash

/-- The pass renames or relocates something because of the loser. -/
def Round.ActsOn (r : Round) (w : World) (loser : DeltaEntry) : Prop :=
  ∃ v ∈ visited w.device.files r.conflicts ⟨w.tree, w.device, ⟨[], []⟩⟩, v.2.1.loser = loser ∧
    (v.1.Relocates w.device.files loser ∨ ∃ source target, v.1.Renames v.2.2 loser source target)

/-- Nothing the pass transfers or moves has the losing content and goes to its path. -/
structure Round.Spares (r : Round) (w : World) (loser : DeltaEntry) : Prop where
  copies : SparesSource w.device r.conflicts loser.path
  setAside : ∀ path target, .setAside path target ∈ r.effects w → target ≠ loser.path
  merged : ∀ e, r.merged.manifest[loser.path]? = some e → e.plaintextHash ≠ loser.plaintextHash
  sent : ∀ result, r.events.Sent loser.path result → result.contentHash ≠ loser.plaintextHash
  fetched : ∀ action result, (action, .downloaded result) ∈ r.events.joined →
    action.path = loser.path → result.contentHash ≠ loser.plaintextHash

/-- Nobody brings the losing content back to its path. -/
def KeepsAway (loser : DeltaEntry) (w : World) : Deed → Prop
  | .files tree => tree.Lacks loser.path loser.plaintextHash
  | .pass round => round.Spares w loser
  | .markEvicted _ | .markLocal _ => True

section Away

variable {w : World} {loser : DeltaEntry} {now : String → ℕ} {e : Effect} {path : String}

theorem LocalTree.Lacks.of_source {t t' : LocalTree} {hash : ContentHash} (h : t.Lacks path hash)
    (hsource : t'[path]? = t[path]? ∨ t'[path]? = none) : t'.Lacks path hash := by
  intro file hfile
  rcases hsource with hsame | hnone
  · exact h file (hsame ▸ hfile)
  · rw [hnone] at hfile
    cases hfile

theorem lastSynced_updateRow {s : DeviceState} {q : String} {f : FileRecord → FileRecord}
    (hf : ∀ record, (f record).lastSyncedHash = record.lastSyncedHash) :
    (s.updateRow q f).files.lastSynced path = s.files.lastSynced path := by
  unfold DeviceState.updateRow
  cases hrow : s.files[q]? with
  | none => rfl
  | some record =>
      simp only [Baseline.lastSynced, StringMap.getElem?_insert]
      by_cases hq : q = path
      · subst hq
        simp [hrow, hf]
      · simp [hq]

theorem lastSynced_markEvicted (s : DeviceState) (q : String) :
    (s.markEvicted q).files.lastSynced path = s.files.lastSynced path :=
  lastSynced_updateRow fun _ => rfl

theorem lastSynced_markLocal (s : DeviceState) (q : String) :
    (s.markLocal q).files.lastSynced path = s.files.lastSynced path :=
  lastSynced_updateRow fun _ => rfl

theorem lastSynced_recordScan {s : DeviceState} {entries : List LocalEntry} :
    (s.recordScan entries).files.lastSynced path = s.files.lastSynced path := by
  unfold DeviceState.recordScan
  induction entries generalizing s with
  | nil => rfl
  | cons entry entries ih =>
      rw [List.foldl_cons, ih]
      simp only [DeviceState.recordScanEntry, Baseline.lastSynced, StringMap.getElem?_insert]
      by_cases hpath : entry.path = path
      · subst hpath
        simp
      · simp [hpath]

theorem tree_run (w : World) (now : String → ℕ) (hreal : stripStubSuffix path = none)
    (hsetAside : ∀ source target, e = .setAside source target → target ≠ path) :
    (w.run now e).tree[path]? = w.tree[path]? ∨ (w.run now e).tree[path]? = none := by
  have hstub : ∀ q, stubRel q ≠ path := by
    rintro q rfl
    rw [stripStubSuffix_eq_some.mpr rfl] at hreal
    cases hreal
  cases e with
  | writePlaceholder stub =>
      left
      simp only [World.run, StringMap.getElem?_insert, if_neg (hstub stub.path)]
  | deleteLocal q =>
      simp only [World.run, StringMap.getElem?_erase, if_neg (hstub q)]
      by_cases hq : q = path <;> simp [hq]
  | setAside source target =>
      have htarget := hsetAside source target rfl
      simp only [World.run]
      cases hsource : w.tree[source]? with
      | none =>
          left
          rw [LocalTree.rename, hsource]
      | some file =>
          rw [LocalTree.getElem?_rename hsource, if_neg htarget.symm]
          by_cases hpath : path = source <;> simp [hpath]
  | _ => exact .inl rfl

theorem tree_runAll {es : List Effect} (hreal : stripStubSuffix path = none)
    (hsetAside : ∀ source target, .setAside source target ∈ es → target ≠ path) :
    (es.foldl (World.run now) w).tree[path]? = w.tree[path]? ∨
      (es.foldl (World.run now) w).tree[path]? = none := by
  induction es generalizing w with
  | nil => exact .inl rfl
  | cons e es ih =>
      rw [List.foldl_cons]
      rcases ih fun source target hmem => hsetAside source target (List.mem_cons_of_mem _ hmem) with
        hsame | hnone
      · rw [hsame]
        apply tree_run w now hreal
        rintro source target rfl
        exact hsetAside source target (List.mem_cons_self ..)
      · exact .inr hnone

def Effect.Settles (e : Effect) (path : String) : Prop :=
  e = .removeRow path ∨ ∃ hash, e.Confirms path hash

theorem Effect.Settles.lastSynced (h : e.Settles path) (w : World) (now : String → ℕ) :
    (w.run now e).device.files.lastSynced path = none ∨ ∃ hash, e.Confirms path hash ∧
      (w.run now e).device.files.lastSynced path = some hash := by
  rcases h with rfl | ⟨hash, ⟨size, mtimeNs, rfl⟩ | ⟨size, rfl⟩⟩
  · left
    simp [World.run, DeviceState.remove, Baseline.lastSynced]
  · right
    exact ⟨hash, .inl ⟨size, mtimeNs, rfl⟩,
      by simp [World.run, DeviceState.confirmSync, Baseline.lastSynced]⟩
  · right
    exact ⟨hash, .inr ⟨size, rfl⟩,
      by simp [World.run, DeviceState.confirmPlaceholder, Baseline.lastSynced]⟩

theorem lastSynced_settled {es : List Effect} {hash : ContentHash}
    (hsettles : ∃ e ∈ es, e.Settles path)
    (h : (es.foldl (World.run now) w).device.files.lastSynced path = some hash) :
    ∃ e ∈ es, e.Confirms path hash := by
  obtain ⟨e, he, hsettles⟩ := hsettles
  obtain ⟨before, after, rfl⟩ := List.append_of_mem he
  rw [List.foldl_append, List.foldl_cons] at h
  rcases World.lastSynced_runAll h with hthere | ⟨f, hf, hconfirms⟩
  · rcases hsettles.lastSynced (before.foldl (World.run now) w) now with hnone | ⟨hash', hc, hsome⟩
    · rw [hnone] at hthere
      cases hthere
    · rw [hsome] at hthere
      cases hthere
      exact ⟨e, he, hc⟩
  · exact ⟨f, List.mem_append_right _ (List.mem_cons_of_mem _ hf), hconfirms⟩

theorem Round.Spares.confirms {r : Round} (h : r.Spares w loser) (he : e ∈ r.effects w) :
    ¬ e.Confirms loser.path loser.plaintextHash := by
  intro hconfirms
  rcases passEffects_confirms he hconfirms with
    (⟨action, result, hmem, hpath, hhash⟩ | ⟨-, entry, hentry, hhash⟩) | ⟨result, hsent, hhash⟩
  · exact h.fetched action result hmem hpath hhash
  · exact h.merged entry hentry hhash
  · exact h.sent result hsent hhash

end Away

section Pass

variable {w : World} {loser : DeltaEntry} {r : Round} {baseline : Baseline} {path : String}
  {conflicts : List (RemoteConflict × String)} {p p' : Preserving}

theorem visited_source {v : Preserving × RemoteConflict × String}
    (hspares : SparesSource p.state conflicts path) (hv : v ∈ visited baseline conflicts p) :
    v.1.tree[path]? = p.tree[path]? ∨ v.1.tree[path]? = none := by
  induction conflicts generalizing p with
  | nil => cases hv
  | cons c conflicts ih =>
      rw [visited] at hv
      rcases List.mem_cons.mp hv with rfl | hv
      · exact .inl rfl
      · cases hone : preserveOne c.2 baseline p c.1 with
        | none =>
            rw [hone] at hv
            cases hv
        | some s =>
            rw [hone] at hv
            rcases ih (hspares.rest hone) hv with hsame | hnone
            · rcases preserveOne_source hone hspares with ⟨hstep, -⟩ | ⟨hgone, -⟩
              · exact .inl (hsame.trans hstep)
              · exact .inr (hsame.trans hgone)
            · exact .inr hnone

theorem preserveLoop_source {ended : Bool} (hspares : SparesSource p.state conflicts path)
    (h : preserveLoop baseline conflicts p = (p', ended)) :
    p'.tree[path]? = p.tree[path]? ∨ p'.tree[path]? = none := by
  induction conflicts generalizing p with
  | nil =>
      cases h
      exact .inl rfl
  | cons c conflicts ih =>
      rw [preserveLoop] at h
      cases hone : preserveOne c.2 baseline p c.1 with
      | none =>
          rw [hone] at h
          cases h
          exact .inl rfl
      | some s =>
          rw [hone] at h
          rcases ih (hspares.rest hone) h with hsame | hnone
          · rcases preserveOne_source hone hspares with ⟨hstep, -⟩ | ⟨hgone, -⟩
            · exact .inl (hsame.trans hstep)
            · exact .inr (hsame.trans hgone)
          · exact .inr hnone

theorem World.Rid.not_acts (h : w.Rid loser) (hpath : safeJoin loser.path = some loser.path)
    (hspares : SparesSource w.device r.conflicts loser.path) : ¬ r.ActsOn w loser := by
  rintro ⟨v, hv, -, hrelocates | ⟨source, target, hrenames⟩⟩
  · obtain ⟨-, hevicted, -⟩ := hrelocates
    unfold evictedLoser at hevicted
    cases hrow : w.device.files[loser.path]? with
    | none =>
        rw [hrow] at hevicted
        cases hevicted
    | some record =>
        rw [hrow] at hevicted
        simp only [Bool.and_eq_true, beq_iff_eq] at hevicted
        exact h.row (by rw [Baseline.lastSynced, hrow, Option.bind_some, hevicted.2])
  · obtain ⟨-, file, hfile, -, hhash⟩ := hrenames.at_source hpath
    exact h.tree.of_source (visited_source hspares hv) file hfile hhash

theorem foldl_erase_source {tree : LocalTree} {paths : List String} :
    (paths.foldl (fun tree path => tree.erase (stubRel path)) tree)[path]? = tree[path]? ∨
      (paths.foldl (fun tree path => tree.erase (stubRel path)) tree)[path]? = none := by
  induction paths generalizing tree with
  | nil => exact .inl rfl
  | cons q paths ih =>
      rw [List.foldl_cons]
      rcases ih with hsame | hnone
      · rw [hsame, StringMap.getElem?_erase]
        split_ifs
        · exact .inr rfl
        · exact .inl rfl
      · exact .inr hnone

/-- A pass keeps the loser's content away, if its path is free of it when the plan is made and its
row is too, or is settled by the pass. -/
theorem Round.Spares.pass (h : r.Spares w loser) (hreal : stripStubSuffix loser.path = none)
    (htree : (r.preserved w).tree.Lacks loser.path loser.plaintextHash)
    (hrow : (r.preserved w).state.files.lastSynced loser.path = some loser.plaintextHash →
      r.Completes w ∧ ∃ e ∈ r.effects w, e.Settles loser.path) : (w.pass r).Rid loser := by
  set t := ((r.effects w).take r.reaches).foldl (World.run r.events.unix) (r.planned w) with ht
  have htreeAfter : t.tree.Lacks loser.path loser.plaintextHash := by
    have hplanned : (r.planned w).tree.Lacks loser.path loser.plaintextHash :=
      htree.of_source foldl_erase_source
    refine hplanned.of_source (tree_runAll hreal fun source target hmem => ?_)
    exact h.setAside source target (List.mem_of_mem_take hmem)
  have hconfirms : ∀ e ∈ (r.effects w).take r.reaches,
      ¬ e.Confirms loser.path loser.plaintextHash :=
    fun e he => h.confirms (List.mem_of_mem_take he)
  have hrowAfter : (preserveConflictLosers r.conflicts w.tree w.device).2 = true →
      t.device.files.lastSynced loser.path ≠ some loser.plaintextHash := by
    intro _ hlast
    obtain ⟨e, he, hc⟩ : ∃ e ∈ (r.effects w).take r.reaches,
        e.Confirms loser.path loser.plaintextHash := by
      by_cases hold : (r.preserved w).state.files.lastSynced loser.path =
          some loser.plaintextHash
      · obtain ⟨⟨-, hreaches, -⟩, e, he, hsettles⟩ := hrow hold
        have hall : e ∈ (r.effects w).take r.reaches := by
          rw [List.take_of_length_le hreaches.le]
          exact he
        exact lastSynced_settled ⟨e, hall, hsettles⟩ hlast
      · rcases World.lastSynced_runAll hlast with hthere | hnew
        · exact absurd hthere hold
        · exact hnew
    exact hconfirms e he hc
  unfold World.pass
  split_ifs with hpreserved hcompletes
  · exact ⟨htreeAfter, by rw [lastSynced_recordScan]; exact hrowAfter hpreserved⟩
  · exact ⟨htreeAfter, hrowAfter hpreserved⟩
  · exact ⟨htree, fun hold => hpreserved (hrow hold).1.1⟩

theorem World.Rid.step {d : Deed} {t : World} (h : w.Rid loser)
    (hreal : stripStubSuffix loser.path = none) (hguard : KeepsAway loser w d)
    (hstep : w.deed d = some t) : t.Rid loser := by
  cases d with
  | files tree =>
      cases hstep
      exact ⟨hguard, h.row⟩
  | pass round =>
      cases hstep
      refine Round.Spares.pass hguard hreal ?_ ?_
      · exact h.tree.of_source (preserveLoop_source hguard.copies rfl)
      · intro hold
        obtain ⟨row, hrow, hhash⟩ := Option.bind_eq_some_iff.mp hold
        have hkept : w.device.files[loser.path]? = some row := preserveLoop_row hrow
        exact absurd (by rw [Baseline.lastSynced, hkept, Option.bind_some, hhash]) h.row
  | markEvicted q =>
      simp only [World.deed] at hstep
      split at hstep
      · cases hstep
      · split_ifs at hstep
        cases hstep
        exact ⟨h.tree, (lastSynced_markEvicted w.device q).symm ▸ h.row⟩
  | markLocal q =>
      cases hstep
      exact ⟨h.tree, (lastSynced_markLocal w.device q).symm ▸ h.row⟩

end Pass

section First

variable {w : World} {loser : DeltaEntry} {r : Round} {baseline : Baseline} {path : String}
  {conflicts : List (RemoteConflict × String)} {p : Preserving}
  {v : Preserving × RemoteConflict × String}

theorem preserveLoop_absent_of_visited (hv : v ∈ visited baseline conflicts p)
    (habsent : v.1.tree[path]? = none) (hspares : SparesSource p.state conflicts path) :
    (preserveLoop baseline conflicts p).1.tree[path]? = none := by
  induction conflicts generalizing p with
  | nil => cases hv
  | cons c conflicts ih =>
      rw [visited] at hv
      rcases List.mem_cons.mp hv with rfl | hv
      · exact preserveLoop_absent habsent hspares rfl
      · cases hone : preserveOne c.2 baseline p c.1 with
        | none =>
            rw [hone] at hv
            cases hv
        | some s =>
            rw [hone] at hv
            rw [preserveLoop, hone]
            exact ih hv (hspares.rest hone)

theorem preserveLoop_renamed {target : String} (hv : v ∈ visited baseline conflicts p)
    (hrenames : v.1.Renames v.2.2 v.2.1.loser path target)
    (hspares : SparesSource p.state conflicts path) :
    (preserveLoop baseline conflicts p).1.tree[path]? = none ∧
      (preserveLoop baseline conflicts p).1.state.files[v.2.1.loser.path]? = none := by
  induction conflicts generalizing p with
  | nil => cases hv
  | cons c conflicts ih =>
      rw [visited] at hv
      cases hone : preserveOne c.2 baseline p c.1 with
      | none =>
          rw [hone] at hv
          rcases List.mem_cons.mp hv with rfl | hv
          · exact absurd hrenames ((preserveOne_eq_none hone).2 path target)
          · cases hv
      | some s =>
          rw [hone] at hv
          rw [preserveLoop, hone]
          rcases List.mem_cons.mp hv with rfl | hv
          · constructor
            · rcases preserveOne_source hone hspares with ⟨-, hstays⟩ | ⟨hgone, -⟩
              · exact absurd hrenames (hstays target)
              · exact preserveLoop_absent hgone (hspares.rest hone) rfl
            · rw [← Option.not_isSome_iff_eq_none, Option.isSome_iff_exists]
              rintro ⟨row, hrow⟩
              have hkept := preserveLoop_row hrow
              obtain ⟨-, -, hstays⟩ | ⟨hrelocates, -⟩ | ⟨source, other, -, rfl⟩ :=
                preserveOne_cases hone
              · exact hstays path target hrenames
              · exact hrelocates.no_rename path target hrenames
              · simp [DeviceState.remove] at hkept
          · exact ih hv (hspares.rest hone)

theorem preserveLoop_asked (hv : v ∈ visited baseline conflicts p)
    (hrelocates : v.1.Relocates baseline v.2.1.loser) :
    ∃ copy, (copy, v.2.1.loser) ∈ (preserveLoop baseline conflicts p).1.preserved.relocations := by
  induction conflicts generalizing p with
  | nil => cases hv
  | cons c conflicts ih =>
      rw [visited] at hv
      cases hone : preserveOne c.2 baseline p c.1 with
      | none =>
          rw [hone] at hv
          rcases List.mem_cons.mp hv with rfl | hv
          · exact absurd hrelocates (preserveOne_eq_none hone).1
          · cases hv
      | some s =>
          rw [hone] at hv
          rw [preserveLoop, hone]
          rcases List.mem_cons.mp hv with rfl | hv
          · obtain ⟨-, hstays, -⟩ | ⟨-, rfl⟩ | ⟨source, target, hrenames, -⟩ :=
              preserveOne_cases hone
            · exact absurd hrelocates hstays
            · exact ⟨_, (preserveLoop_grows rfl).2
                (List.mem_append_right _ (List.mem_singleton_self _))⟩
            · exact absurd hrenames (hrelocates.no_rename source target)
          · exact ih hv

theorem planPath_evicted {entries : List LocalEntry} {remote : Manifest} {view : ResidencyView}
    {record : FileRecord} {hash : ContentHash} (hlocal : localHash entries path = none)
    (hrow : baseline[path]? = some record) (hevicted : record.isEvicted = true)
    (hbase : record.lastSyncedHash = some hash) (hlive : remote.liveHash path ≠ some hash)
    (hown : ∀ stub, view.placeholders[path]? = some stub → stub.path = path) :
    (planPath entries baseline remote view path).1 = some .hydrate ∨
      (planPath entries baseline remote view path).1 = some .updatePlaceholder ∨
      (planPath entries baseline remote view path).1 = some .deleteLocal := by
  have hlast : baseline.lastSynced path = some hash := by
    rw [Baseline.lastSynced, hrow, Option.bind_some, hbase]
  have hchange : classify (remote.liveHash path) (some hash) = .deleted ∨
      classify (remote.liveHash path) (some hash) = .modified := by
    cases hthere : remote.liveHash path with
    | none => exact .inl rfl
    | some other =>
        rw [hthere, ne_eq, Option.some.injEq] at hlive
        exact .inr (by simp [classify, hlive])
  simp only [planPath, hlocal, hlast, hrow, Option.isSome_none, Bool.false_eq_true, if_false,
    Option.any_some, hevicted, if_true]
  cases hstub : view.placeholders[path]? with
  | none => rcases hchange with hc | hc <;> simp [hc]
  | some stub =>
      have hmine := hown stub hstub
      simp only [placeholderAction, hmine, ne_eq, not_true_eq_false, if_false, Option.bind_some,
        hbase]
      rcases hchange with hc | hc
      · simp [hc]
      · by_cases hwants : view.wantsLocal path = true <;> simp [hc, hwants]

/-- Nothing keeps the pass from advancing the loser's own placeholder: no placeholder from another
path stands in its place, and no relocation of the path's version fails. -/
structure Round.Advances (r : Round) (w : World) (loser : DeltaEntry) : Prop where
  own : ∀ stub, (r.passPlan w).scan.placeholders[loser.path]? = some stub →
    stub.path = loser.path
  free : ∀ action error entry, (action, Outcome.failed error) ∈ r.events.joined →
    (r.passPlan w).plan.relocations[action.path]? = some entry → entry.path ≠ loser.path

theorem Round.Advances.settles {record : FileRecord} {copy : String} (h : r.Advances w loser)
    (hcompletes : r.Completes w) (habsent : (r.preserved w).tree[loser.path]? = none)
    (hrow : (r.preserved w).state.files[loser.path]? = some record)
    (hevicted : record.isEvicted = true) (hbase : record.lastSyncedHash = some loser.plaintextHash)
    (hlive : r.merged.manifest.liveHash loser.path ≠ some loser.plaintextHash)
    (hasked : (copy, loser) ∈ (r.preserved w).preserved.relocations) :
    ∃ e ∈ r.effects w, e.Settles loser.path := by
  have hfinishes := hcompletes.2.2
  have hlocal : localHash (r.passPlan w).scan.entries loser.path = none := localHash_absent habsent
  have hown : ∀ stub, (r.view w).placeholders[loser.path]? = some stub → stub.path = loser.path :=
    h.own
  have hplanned : ⟨loser.path, .updatePlaceholder⟩ ∈ (r.passPlan w).plan.actions ∨
      ⟨loser.path, .deleteLocal⟩ ∈ (r.passPlan w).plan.actions := by
    rcases planPath_evicted hlocal hrow hevicted hbase hlive hown with hkind | hkind | hkind
    · rcases Round.mem_actions hkind with hmem | ⟨-, hmem⟩
      · have hkept := (foldl_addRelocation_hydrate (mem_sortActions.mp hmem)).2 _ hasked
        exact absurd rfl hkept
      · exact .inl hmem
    · exact .inl ((Round.mem_actions hkind).resolve_right fun h => by cases h.1)
    · exact .inr ((Round.mem_actions hkind).resolve_right fun h => by cases h.1)
  rcases hplanned with hupdate | hdelete
  · obtain ⟨size, hash, he⟩ := passEffects_updatePlaceholder hfinishes hupdate h.free
    exact ⟨_, he, .inr ⟨hash, .inr ⟨size, rfl⟩⟩⟩
  · exact ⟨_, passEffects_deleteLocal hfinishes hdelete, .inl rfl⟩

theorem Round.ActsOn.rid (h : r.ActsOn w loser) (hpath : safeJoin loser.path = some loser.path)
    (hreal : stripStubSuffix loser.path = none) (hcompletes : r.Completes w)
    (hspares : r.Spares w loser) (hadvances : r.Advances w loser) : (w.pass r).Rid loser := by
  obtain ⟨v, hv, hloser, hacts⟩ := h
  have habsent : (r.preserved w).tree[loser.path]? = none := by
    rcases hacts with ⟨-, -, source, hsource, habsent⟩ | ⟨source, target, hrenames⟩
    · rw [hpath, Option.some.injEq] at hsource
      subst hsource
      exact preserveLoop_absent_of_visited hv habsent hspares.copies
    · obtain ⟨rfl, -⟩ := hrenames.at_source hpath
      subst hloser
      exact (preserveLoop_renamed hv hrenames hspares.copies).1
  refine hspares.pass hreal (fun file hfile => ?_) fun hlast => ⟨hcompletes, ?_⟩
  · rw [habsent] at hfile
    cases hfile
  · obtain ⟨record, hrow, hbase⟩ := Option.bind_eq_some_iff.mp hlast
    rcases hacts with hrelocates | ⟨source, target, hrenames⟩
    · subst hloser
      obtain ⟨copy, hasked⟩ := preserveLoop_asked hv hrelocates
      have hkept : w.device.files[v.2.1.loser.path]? = some record := preserveLoop_row hrow
      have hevicted : record.isEvicted = true := by
        have hstub := hrelocates.2.1
        simp only [evictedLoser, hkept, Bool.and_eq_true] at hstub
        exact hstub.1
      refine hadvances.settles hcompletes habsent hrow hevicted hbase ?_ hasked
      intro hlive
      obtain ⟨e, he, hhash⟩ := Option.bind_eq_some_iff.mp hlive
      split_ifs at hhash
      exact hspares.merged e he (Option.some.inj hhash)
    · obtain ⟨rfl, -⟩ := hrenames.at_source hpath
      subst hloser
      have hgone := (preserveLoop_renamed hv hrenames hspares.copies).2
      rw [show (r.preserved w).state.files[v.2.1.loser.path]? = none from hgone] at hrow
      cases hrow

end First

/-- A conflict that a completed pass has acted on is not acted on again, as long as nothing brings
the losing content back to its path. -/
theorem conflict_acted_on_once (loser : DeltaEntry) (w t : World) (first later : Round)
    (deeds : List Deed) (hpath : safeJoin loser.path = some loser.path)
    (hreal : stripStubSuffix loser.path = none) (hacts : first.ActsOn w loser)
    (hcompletes : first.Completes w) (hspares : first.Spares w loser)
    (hadvances : first.Advances w loser)
    (hrun : Runs World.deed (KeepsAway loser) (w.pass first) deeds t)
    (hlater : SparesSource t.device later.conflicts loser.path) : ¬ later.ActsOn t loser := by
  have hstep : ∀ (w : World) d t, w.Rid loser → KeepsAway loser w d → w.deed d = some t →
      t.Rid loser := fun _ _ _ h hguard hstep => h.step hreal hguard hstep
  have hrid := hrun.invariant (hacts.rid hpath hreal hcompletes hspares hadvances) hstep
  exact hrid.not_acts hpath hlater

/-- The losing device reads both deltas and downloads the winner. -/
def readingBoth : Round where
  options := plainOptions
  utc := fun _ => "now"
  snapshot := ∅
  deltas := [losingDelta, winningDelta]
  events := ⟨[], [(⟨"a", .download⟩, .downloaded ⟨1, 0, 11⟩)], fun _ => 0, fun _ => "now"⟩
  reaches := 9

/-- What the device has after that pass, with a new file at the path. -/
def rewritten (hash : ContentHash) : World :=
  let w := losingDevice.pass readingBoth
  { w with tree := w.tree.insert "a" ⟨⟨1, 1⟩, hash, true, none⟩ }

theorem conflict_acted_on_once_edited : ¬ readingBoth.ActsOn (rewritten 12) losingDelta := by
  have hconflicts : readingBoth.conflicts = [(⟨winningDelta, losingDelta⟩, "now")] := by
    decide +kernel
  have hcopy : safeJoin (copyPath "now" "phone" "a") ≠ some "a" := by decide +kernel
  have heffects : ∀ e ∈ readingBoth.effects losingDevice, ∀ q : String × String,
      e ≠ .setAside q.1 q.2 := by
    have hlist : readingBoth.effects losingDevice =
        [.confirmSync "a" 1 0 11, .recordLamport 3] := by decide +kernel
    intro e he q
    rw [hlist] at he
    simp only [List.mem_cons, List.not_mem_nil, or_false] at he
    rcases he with rfl | rfl <;> simp
  apply conflict_acted_on_once losingDelta losingDevice (rewritten 12) readingBoth readingBoth
    [.files (rewritten 12).tree]
  · decide +kernel
  · decide +kernel
  · refine ⟨_, by rw [hconflicts, visited]; exact List.mem_cons_self .., rfl, .inr ?_⟩
    exact ⟨"a", _, rfl, by decide +kernel, rfl, _, rfl, rfl, rfl⟩
  · decide +kernel
  · constructor
    · intro c hc _
      rw [hconflicts, List.mem_singleton] at hc
      subst hc
      exact hcopy
    · exact fun path target he => absurd rfl (heffects _ he (path, target))
    · intro e he
      have hfound : readingBoth.merged.manifest["a"]? = some winningDelta := by decide +kernel
      rw [show losingDelta.path = "a" from rfl, hfound] at he
      cases he
      decide +kernel
    · rintro result (⟨action, hsent, -⟩ | ⟨upload, hsent, -⟩)
      · simp [readingBoth] at hsent
      · simp [readingBoth] at hsent
    · intro action result hmem _
      simp only [readingBoth, List.mem_singleton, Prod.mk.injEq, Outcome.downloaded.injEq] at hmem
      obtain ⟨-, rfl⟩ := hmem
      decide +kernel
  · constructor
    · intro stub hstub
      have hnone : (readingBoth.passPlan losingDevice).scan.placeholders["a"]? = none := by
        decide +kernel
      rw [show losingDelta.path = "a" from rfl, hnone] at hstub
      cases hstub
    · intro action error entry hmem
      simp [readingBoth] at hmem
  · refine .next ?_ rfl (.refl _)
    intro file hfile
    have hfound : (rewritten 12).tree["a"]? = some ⟨⟨1, 1⟩, 12, true, none⟩ := by decide +kernel
    rw [show losingDelta.path = "a" from rfl, hfound] at hfile
    cases hfile
    decide +kernel
  · intro c hc _
    rw [hconflicts, List.mem_singleton] at hc
    subst hc
    exact hcopy

/-- The user restores the losing content, and the next pass renames it aside once more. -/
theorem conflict_acted_on_twice :
    readingBoth.Completes losingDevice ∧
    readingBoth.conflicts = [(⟨winningDelta, losingDelta⟩, "now")] ∧
    (readingBoth.preserved losingDevice).preserved.renamed =
      ["a (conflicted copy now from phone)"] ∧
    (readingBoth.preserved (rewritten 10)).preserved.renamed =
      ["a (conflicted copy now from phone)"] := by
  refine ⟨?_, ?_, ?_, ?_⟩
  · decide +kernel
  · decide +kernel
  · decide +kernel
  · decide +kernel

end FileMirror
