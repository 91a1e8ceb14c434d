import FileMirror.ConflictOnce

set_option autoImplicit false

namespace FileMirror

open Transitions

/-- Neither a file nor a placeholder stands for the path. -/
def LocalTree.Absent (t : LocalTree) (path : String) : Prop :=
  t[path]? = none ∧ t[stubRel path]? = none

instance (t : LocalTree) (path : String) : Decidable (t.Absent path) :=
  inferInstanceAs (Decidable (_ ∧ _))

def Baseline.Forgets (b : Baseline) (path : String) : Prop :=
  ∀ row, b[path]? = some row → row.lastSyncedHash = none ∧ row.isEvicted = false

def Effect.TakesUp (e : Effect) (path : String) : Prop :=
  (∃ stub, e = .writePlaceholder stub ∧ (stub.path = path ∨ stubRel stub.path = path)) ∨
  (∃ source target, e = .setAside source target ∧ (target = path ∨ target = stubRel path)) ∨
  ∃ hash, e.Confirms path hash

/-- No conflicted copy of the pass goes to the path or to its placeholder's place. -/
def Round.SparesPath (r : Round) (w : World) (path : String) : Prop :=
  SparesSource w.device r.conflicts path ∧ SparesSource w.device r.conflicts (stubRel path)

/-- The pass leaves the path absent, however far it gets. -/
structure Round.LeavesAbsent (r : Round) (w : World) (path : String) : Prop where
  copies : r.SparesPath w path
  effects : ∀ e ∈ (r.effects w).take r.reaches, ¬ e.TakesUp path

def StaysAbsent (path : String) (w : World) : Deed → Prop
  | .files tree => tree.Absent path
  | .pass round => round.LeavesAbsent w path
  | .markEvicted _ | .markLocal _ => True

/-- The pass fetches the path's remote version and nothing else befalls it. -/
def Round.Fetches (r : Round) (w : World) (path : String) : Prop :=
  (⟨path, .download⟩ ∈ (r.passPlan w).plan.actions ∨
    ⟨path, .createPlaceholder⟩ ∈ (r.passPlan w).plan.actions) ∧
  ⟨path, .deleteRemote⟩ ∉ (r.passPlan w).plan.actions ∧
  ⟨path, .conflict⟩ ∉ (r.passPlan w).plan.actions

def Baseline.status (b : Baseline) (path : String) : Option (Option ContentHash × Bool) :=
  b[path]?.map fun row => (row.lastSyncedHash, row.isEvicted)

section Effects

variable {w : World} {now : String → ℕ} {e : Effect} {path : String} {es : List Effect}

theorem forgets_iff {b : Baseline} :
    b.Forgets path ↔ b.status path = none ∨ b.status path = some (none, false) := by
  unfold Baseline.Forgets Baseline.status
  cases b[path]? with
  | none => simp
  | some row => simp

theorem status_run (w : World) (now : String → ℕ) (hconfirms : ∀ hash, ¬ e.Confirms path hash)
    (hremoves : e ≠ .removeRow path) :
    (w.run now e).device.files.status path = w.device.files.status path := by
  unfold Baseline.status
  cases e with
  | confirmSync p size mtimeNs hash =>
      have hne : p ≠ path := by
        rintro rfl
        exact hconfirms hash (.inl ⟨size, mtimeNs, rfl⟩)
      simp [World.run, DeviceState.confirmSync, StringMap.getElem?_insert, hne]
  | confirmPlaceholder p size hash =>
      have hne : p ≠ path := by
        rintro rfl
        exact hconfirms hash (.inr ⟨size, rfl⟩)
      simp [World.run, DeviceState.confirmPlaceholder, StringMap.getElem?_insert, hne]
  | removeRow p =>
      have hne : p ≠ path := by
        rintro rfl
        exact hremoves rfl
      simp [World.run, DeviceState.remove, StringMap.getElem?_erase, hne]
  | recordHydrated p =>
      simp only [World.run, DeviceState.recordHydrated, DeviceState.updateRow]
      cases hrow : w.device.files[p]? with
      | none => rfl
      | some record =>
          simp only [StringMap.getElem?_insert]
          by_cases hp : p = path
          · subst hp
            simp [hrow, FileRecord.isEvicted]
          · simp [hp]
  | _ => rfl

theorem status_removeRow (w : World) (now : String → ℕ) :
    (w.run now (.removeRow path)).device.files.status path = none := by
  simp [World.run, DeviceState.remove, Baseline.status]

theorem status_runAll (w : World) (now : String → ℕ) (hconfirms : ∀ e ∈ es, ∀ hash, ¬ e.Confirms path hash)
    (hremoves : .removeRow path ∉ es) :
    (es.foldl (World.run now) w).device.files.status path = w.device.files.status path := by
  induction es generalizing w with
  | nil => rfl
  | cons e es ih =>
      rw [List.foldl_cons, ih _ fun f hf => hconfirms f (List.mem_cons_of_mem _ hf)]
      · apply status_run w now (hconfirms e (List.mem_cons_self ..))
        rintro rfl
        exact hremoves (List.mem_cons_self ..)
      · exact fun hmem => hremoves (List.mem_cons_of_mem _ hmem)

theorem status_runAll_le (w : World) (now : String → ℕ) (hconfirms : ∀ e ∈ es, ∀ hash, ¬ e.Confirms path hash) :
    (es.foldl (World.run now) w).device.files.status path = w.device.files.status path ∨
      (es.foldl (World.run now) w).device.files.status path = none := by
  induction es generalizing w with
  | nil => exact .inl rfl
  | cons e es ih =>
      rw [List.foldl_cons]
      rcases ih _ fun f hf => hconfirms f (List.mem_cons_of_mem _ hf) with hsame | hnone
      · rw [hsame]
        by_cases hremoves : e = .removeRow path
        · subst hremoves
          exact .inr (status_removeRow w now)
        · exact .inl (status_run w now (hconfirms e (List.mem_cons_self ..)) hremoves)
      · exact .inr hnone

theorem status_runAll_removed (w : World) (now : String → ℕ) (hconfirms : ∀ e ∈ es, ∀ hash, ¬ e.Confirms path hash)
    (hremoves : .removeRow path ∈ es) :
    (es.foldl (World.run now) w).device.files.status path = none := by
  obtain ⟨before, after, rfl⟩ := List.append_of_mem hremoves
  rw [List.foldl_append, List.foldl_cons]
  have hafter : ∀ e ∈ after, ∀ hash, ¬ e.Confirms path hash :=
    fun e he => hconfirms e (List.mem_append_right _ (List.mem_cons_of_mem _ he))
  rcases status_runAll_le _ now hafter with hsame | hnone
  · rw [hsame, status_removeRow]
  · exact hnone

theorem absent_run (h : w.tree.Absent path) (hstays : ¬ e.TakesUp path) :
    (w.run now e).tree.Absent path := by
  obtain ⟨hfile, hstub⟩ := h
  cases e with
  | writePlaceholder stub =>
      have hne : stubRel stub.path ≠ path := fun heq => hstays (.inl ⟨stub, rfl, .inr heq⟩)
      have hne' : stubRel stub.path ≠ stubRel path := fun heq =>
        hstays (.inl ⟨stub, rfl, .inl (stubRel_injective heq)⟩)
      simp [LocalTree.Absent, World.run, StringMap.getElem?_insert, hne, hne', hfile, hstub]
  | deleteLocal q =>
      simp only [LocalTree.Absent, World.run, StringMap.getElem?_erase, hfile, hstub]
      simp
  | setAside source target =>
      have hne : path ≠ target := fun heq =>
        hstays (.inr (.inl ⟨source, target, rfl, .inl heq.symm⟩))
      have hne' : stubRel path ≠ target := fun heq =>
        hstays (.inr (.inl ⟨source, target, rfl, .inr heq.symm⟩))
      simp only [World.run]
      cases hsource : w.tree[source]? with
      | none =>
          rw [LocalTree.rename, hsource]
          exact ⟨hfile, hstub⟩
      | some file =>
          simp [LocalTree.Absent, LocalTree.getElem?_rename hsource, hne, hne', hfile, hstub]
  | _ => exact ⟨hfile, hstub⟩

theorem absent_runAll (now : String → ℕ) (h : w.tree.Absent path) (hstays : ∀ e ∈ es, ¬ e.TakesUp path) :
    (es.foldl (World.run now) w).tree.Absent path := by
  induction es generalizing w with
  | nil => exact h
  | cons e es ih =>
      rw [List.foldl_cons]
      apply ih
      · exact absent_run h (hstays e (List.mem_cons_self ..))
      · exact fun f hf => hstays f (List.mem_cons_of_mem _ hf)

end Effects

section Pass

variable {w : World} {r : Round} {path : String}

theorem status_recordScan {s : DeviceState} {entries : List LocalEntry}
    (h : ∀ entry ∈ entries, entry.path ≠ path) :
    (s.recordScan entries).files.status path = s.files.status path := by
  unfold DeviceState.recordScan
  induction entries generalizing s with
  | nil => rfl
  | cons entry entries ih =>
      rw [List.foldl_cons, ih fun e he => h e (List.mem_cons_of_mem _ he)]
      have hne := h entry (List.mem_cons_self ..)
      simp [DeviceState.recordScanEntry, Baseline.status, StringMap.getElem?_insert, hne]

theorem Round.SparesPath.absent (h : r.SparesPath w path) (habsent : w.tree.Absent path) :
    (r.preserved w).tree.Absent path :=
  ⟨preserveLoop_absent habsent.1 h.1 rfl, preserveLoop_absent habsent.2 h.2 rfl⟩

theorem Round.preserved_status (r : Round) (w : World) (path : String) :
    (r.preserved w).state.files.status path = w.device.files.status path ∨
      (r.preserved w).state.files.status path = none := by
  unfold Baseline.status
  cases hrow : (r.preserved w).state.files[path]? with
  | none => exact .inr rfl
  | some row =>
      have hkept : w.device.files[path]? = some row := preserveLoop_row hrow
      exact .inl (by rw [hkept])

theorem Round.SparesPath.unscanned (h : r.SparesPath w path) (habsent : w.tree.Absent path) :
    ∀ entry ∈ (r.passPlan w).scan.entries, entry.path ≠ path := by
  have hlocal : localHash (r.passPlan w).scan.entries path = none :=
    localHash_absent (h.absent habsent).1
  exact localHash_eq_none.mp hlocal

theorem Round.SparesPath.no_placeholder (h : r.SparesPath w path) (habsent : w.tree.Absent path) :
    (r.view w).placeholders[path]? = none := by
  rw [← Option.not_isSome_iff_eq_none, Option.isSome_iff_exists]
  rintro ⟨stub, hstub⟩
  have hscanned := (dropStale_eq_some.mp hstub).1
  rw [scan_placeholders] at hscanned
  unfold stubFor at hscanned
  split_ifs at hscanned
  rw [(h.absent habsent).2] at hscanned
  cases hscanned

variable (h : r.LeavesAbsent w path) (habsent : w.tree.Absent path)

include h habsent

theorem Round.LeavesAbsent.tree : (w.pass r).tree.Absent path := by
  have hpreserved := h.copies.absent habsent
  have hplanned : (r.planned w).tree.Absent path :=
    ⟨foldl_erase_absent hpreserved.1, foldl_erase_absent hpreserved.2⟩
  have hrun := absent_runAll r.events.unix hplanned h.effects
  unfold World.pass
  split_ifs
  · exact hrun
  · exact hrun
  · exact hpreserved

theorem Round.LeavesAbsent.status : (w.pass r).device.files.status path =
    (r.preserved w).state.files.status path ∨ (w.pass r).device.files.status path = none := by
  have hconfirms : ∀ e ∈ (r.effects w).take r.reaches, ∀ hash, ¬ e.Confirms path hash :=
    fun e he hash hc => h.effects e he (.inr (.inr ⟨hash, hc⟩))
  have hrun := status_runAll_le (r.planned w) r.events.unix hconfirms
  unfold World.pass
  split_ifs
  · rw [status_recordScan (h.copies.unscanned habsent)]
    exact hrun
  · exact hrun
  · exact .inl rfl

theorem Round.LeavesAbsent.status_kept (hremoves : .removeRow path ∉ r.effects w) :
    (w.pass r).device.files.status path = (r.preserved w).state.files.status path := by
  have hconfirms : ∀ e ∈ (r.effects w).take r.reaches, ∀ hash, ¬ e.Confirms path hash :=
    fun e he hash hc => h.effects e he (.inr (.inr ⟨hash, hc⟩))
  have hrun := status_runAll (r.planned w) r.events.unix hconfirms
    fun hmem => hremoves (List.mem_of_mem_take hmem)
  unfold World.pass
  split_ifs
  · rw [status_recordScan (h.copies.unscanned habsent)]
    exact hrun
  · exact hrun
  · rfl

theorem Round.LeavesAbsent.status_removed (hcompletes : r.Completes w)
    (hremoves : .removeRow path ∈ r.effects w) : (w.pass r).device.files.status path = none := by
  have hconfirms : ∀ e ∈ (r.effects w).take r.reaches, ∀ hash, ¬ e.Confirms path hash :=
    fun e he hash hc => h.effects e he (.inr (.inr ⟨hash, hc⟩))
  have hall : .removeRow path ∈ (r.effects w).take r.reaches := by
    rw [List.take_of_length_le hcompletes.2.1.le]
    exact hremoves
  have hrun := status_runAll_removed (r.planned w) r.events.unix hconfirms hall
  unfold World.pass
  rw [if_pos hcompletes.1, if_pos hcompletes]
  rw [status_recordScan (h.copies.unscanned habsent)]
  exact hrun

end Pass

structure World.Forgot (w : World) (path : String) : Prop where
  tree : w.tree.Absent path
  row : w.device.files.Forgets path

section Forgotten

variable {w t : World} {r : Round} {path : String} {hash : ContentHash}

theorem Baseline.Forgets.of_status {b b' : Baseline} (h : b.Forgets path)
    (hstatus : b'.status path = b.status path ∨ b'.status path = none) : b'.Forgets path := by
  rw [forgets_iff] at h ⊢
  rcases hstatus with hsame | hnone
  · rw [hsame]
    exact h
  · exact .inl hnone

theorem status_updateRow {s : DeviceState} {q : String} {f : FileRecord → FileRecord}
    (hne : q ≠ path) : (s.updateRow q f).files.status path = s.files.status path := by
  unfold DeviceState.updateRow
  cases s.files[q]? with
  | none => rfl
  | some record => simp [Baseline.status, StringMap.getElem?_insert, hne]

theorem World.Forgot.step {d : Deed} (h : w.Forgot path) (hguard : StaysAbsent path w d)
    (hstep : w.deed d = some t) : t.Forgot path := by
  cases d with
  | files tree =>
      cases hstep
      exact ⟨hguard, h.row⟩
  | pass round =>
      cases hstep
      have hpreserved := h.row.of_status (round.preserved_status w path)
      exact ⟨hguard.tree h.tree, hpreserved.of_status (hguard.status h.tree)⟩
  | markEvicted q =>
      simp only [World.deed] at hstep
      split at hstep
      · cases hstep
      · rename_i record hrow
        split_ifs at hstep with hlast
        cases hstep
        have hne : q ≠ path := by
          rintro rfl
          rw [(h.row record hrow).1] at hlast
          cases hlast
        exact ⟨h.tree, h.row.of_status (.inl (status_updateRow hne))⟩
  | markLocal q =>
      cases hstep
      refine ⟨h.tree, ?_⟩
      by_cases hq : q = path
      · subst hq
        intro row hrow
        simp only [DeviceState.markLocal, DeviceState.updateRow] at hrow
        cases hold : w.device.files[q]? with
        | none =>
            rw [hold] at hrow
            exact h.row row hrow
        | some record =>
            simp only [hold, StringMap.getElem?_insert, if_true, Option.some.injEq] at hrow
            subst hrow
            exact ⟨(h.row record hold).1, rfl⟩
      · exact h.row.of_status (.inl (status_updateRow hq))

theorem planPath_recreated (hspares : r.SparesPath w path) (habsent : w.tree.Absent path)
    (hlive : r.merged.manifest.liveHash path = some hash) :
    ((r.preserved w).state.files.Forgets path →
      (planPath (r.passPlan w).scan.entries (r.preserved w).state.files r.merged.manifest
        (r.view w) path).1 = some .download ∨
      (planPath (r.passPlan w).scan.entries (r.preserved w).state.files r.merged.manifest
        (r.view w) path).1 = some .createPlaceholder) ∧
    ((r.preserved w).state.files.status path = some (some hash, false) →
      (planPath (r.passPlan w).scan.entries (r.preserved w).state.files r.merged.manifest
        (r.view w) path).1 = some .deleteRemote) := by
  have hlocal : localHash (r.passPlan w).scan.entries path = none :=
    localHash_eq_none.mpr (hspares.unscanned habsent)
  have hstub := hspares.no_placeholder habsent
  simp only [planPath, hlocal, hstub, hlive, Option.isSome_none, Bool.false_eq_true, if_false]
  constructor
  · intro hforgets
    have hbase : (r.preserved w).state.files.lastSynced path = none := by
      cases hrow : (r.preserved w).state.files[path]? with
      | none => rw [Baseline.lastSynced, hrow, Option.bind_none]
      | some row => rw [Baseline.lastSynced, hrow, Option.bind_some, (hforgets row hrow).1]
    have hlocalRow : ((r.preserved w).state.files[path]?).any FileRecord.isEvicted = false := by
      cases hrow : (r.preserved w).state.files[path]? with
      | none => rfl
      | some row => rw [Option.any_some, (hforgets row hrow).2]
    simp only [hbase, hlocalRow, classify, decideAction, Bool.false_eq_true, if_false]
    by_cases honline : (r.view w).policy.arrivesOnlineOnly path = true <;> simp [honline]
  · intro hstatus
    obtain ⟨row, hrow, heq⟩ := Option.map_eq_some_iff.mp hstatus
    obtain ⟨hlast, hevicted⟩ := Prod.mk.inj heq
    simp [Baseline.lastSynced, hrow, hlast, hevicted, classify, decideAction]

theorem World.Forgot.fetches (h : w.Forgot path) (hspares : r.SparesPath w path)
    (hlive : r.merged.manifest.liveHash path = some hash) : r.Fetches w path := by
  have hforgets := h.row.of_status (r.preserved_status w path)
  have hkind := (planPath_recreated hspares h.tree hlive).1 hforgets
  have hother : ∀ kind, kind = .deleteRemote ∨ kind = .conflict →
      ⟨path, kind⟩ ∉ (r.passPlan w).plan.actions := by
    intro kind hbad hmem
    rcases Round.of_mem_actions hmem with rfl | hdecided | rfl
    · simp at hbad
    · rw [hdecided] at hkind
      rcases hbad with rfl | rfl <;> simp at hkind
    · simp at hbad
  refine ⟨?_, hother _ (.inl rfl), hother _ (.inr rfl)⟩
  rcases hkind with hkind | hkind
  · exact .inl ((Round.mem_actions hkind).resolve_right fun h => by cases h.1)
  · exact .inr ((Round.mem_actions hkind).resolve_right fun h => by cases h.1)

end Forgotten

def Baseline.EvictsSynced (b : Baseline) : Prop :=
  ∀ (path : String) (row : FileRecord), b[path]? = some row → row.isEvicted = true →
    row.lastSyncedHash ≠ none

section EvictsSynced

variable {s : DeviceState} {w t : World}

theorem Baseline.EvictsSynced.insert {b : Baseline} {path : String} {row : FileRecord}
    (h : b.EvictsSynced) (hrow : row.isEvicted = true → row.lastSyncedHash ≠ none) :
    Baseline.EvictsSynced (b.insert path row) := by
  intro q other hother
  rw [StringMap.getElem?_insert] at hother
  split_ifs at hother
  · cases hother
    exact hrow
  · exact h q other hother

theorem Baseline.EvictsSynced.updateRow {path : String} {f : FileRecord → FileRecord}
    (h : s.files.EvictsSynced) (hf : ∀ record, s.files[path]? = some record →
      (f record).isEvicted = true → (f record).lastSyncedHash ≠ none) :
    (s.updateRow path f).files.EvictsSynced := by
  unfold DeviceState.updateRow
  cases hrow : s.files[path]? with
  | none => exact h
  | some record => exact h.insert (hf record hrow)

theorem Baseline.EvictsSynced.recordScan {entries : List LocalEntry} (h : s.files.EvictsSynced) :
    (s.recordScan entries).files.EvictsSynced := by
  unfold DeviceState.recordScan
  induction entries generalizing s with
  | nil => exact h
  | cons entry entries ih =>
      rw [List.foldl_cons]
      apply ih
      exact h.insert fun hlocal => by cases hlocal

theorem Baseline.EvictsSynced.run {now : String → ℕ} {e : Effect}
    (h : w.device.files.EvictsSynced) : (w.run now e).device.files.EvictsSynced := by
  cases e with
  | confirmSync p size mtimeNs hash => exact h.insert fun hlocal => by cases hlocal
  | confirmPlaceholder p size hash => exact h.insert fun _ => by simp
  | removeRow p =>
      intro q row hrow
      simp only [World.run, DeviceState.remove, StringMap.getElem?_erase] at hrow
      split_ifs at hrow
      exact h q row hrow
  | recordHydrated p => exact h.updateRow fun record hrow => h p record hrow
  | _ => exact h

theorem Baseline.EvictsSynced.runAll (now : String → ℕ) (es : List Effect)
    (h : w.device.files.EvictsSynced) :
    (es.foldl (World.run now) w).device.files.EvictsSynced := by
  induction es generalizing w with
  | nil => exact h
  | cons e es ih => exact ih h.run

theorem Baseline.EvictsSynced.preserved (h : w.device.files.EvictsSynced) (r : Round) :
    (r.preserved w).state.files.EvictsSynced :=
  fun path row hrow => h path row (preserveLoop_row hrow)

theorem Baseline.EvictsSynced.deed {d : Deed} (h : w.device.files.EvictsSynced)
    (hstep : w.deed d = some t) : t.device.files.EvictsSynced := by
  cases d with
  | files tree =>
      cases hstep
      exact h
  | pass r =>
      cases hstep
      have hplanned : (r.planned w).device.files.EvictsSynced := h.preserved r
      have hrun := hplanned.runAll r.events.unix ((r.effects w).take r.reaches)
      unfold World.pass
      split_ifs
      · exact hrun.recordScan
      · exact hrun
      · exact h.preserved r
  | markEvicted path =>
      simp only [World.deed] at hstep
      split at hstep
      · cases hstep
      · rename_i record hrow
        split_ifs at hstep with hlast
        cases hstep
        apply h.updateRow
        intro row hrow' _
        rw [hrow] at hrow'
        cases hrow'
        simp [hlast]
  | markLocal path =>
      cases hstep
      exact h.updateRow fun record _ hevicted => by cases hevicted

end EvictsSynced

section Recreated

variable {w t : World} {r : Round} {path : String}

theorem planPath_gone (hspares : r.SparesPath w path) (habsent : w.tree.Absent path)
    (hdeleted : r.merged.manifest.liveHash path = none) {row : FileRecord} {hash : ContentHash}
    (hrow : (r.preserved w).state.files[path]? = some row)
    (hlast : row.lastSyncedHash = some hash) :
    (planPath (r.passPlan w).scan.entries (r.preserved w).state.files r.merged.manifest
      (r.view w) path).1 = if row.isEvicted then some .deleteLocal else none := by
  have hlocal : localHash (r.passPlan w).scan.entries path = none :=
    localHash_eq_none.mpr (hspares.unscanned habsent)
  have hstub := hspares.no_placeholder habsent
  have hbase : (r.preserved w).state.files.lastSynced path = some hash := by
    rw [Baseline.lastSynced, hrow, Option.bind_some, hlast]
  simp only [planPath, hlocal, hstub, hdeleted, hbase, hrow, Option.isSome_none,
    Bool.false_eq_true, if_false, Option.any_some]
  cases row.isEvicted <;> rfl

/-- A completed pass over a path that is gone on both sides forgets it, unless a row that is not
evicted stands in the way. -/
theorem Round.LeavesAbsent.forgot (h : r.LeavesAbsent w path) (hcompletes : r.Completes w)
    (habsent : w.tree.Absent path) (hdeleted : r.merged.manifest.liveHash path = none)
    (hsynced : w.device.files.EvictsSynced)
    (hrows : ∀ row, (r.preserved w).state.files[path]? = some row →
      row.lastSyncedHash = none ∨ row.isEvicted = true) : (w.pass r).Forgot path := by
  refine ⟨h.tree habsent, ?_⟩
  by_cases hforgets : (r.preserved w).state.files.Forgets path
  · exact hforgets.of_status (h.status habsent)
  have hevicted : ∃ row, (r.preserved w).state.files[path]? = some row ∧
      row.isEvicted = true := by
    unfold Baseline.Forgets at hforgets
    push Not at hforgets
    obtain ⟨row, hrow, hsays⟩ := hforgets
    refine ⟨row, hrow, ?_⟩
    rcases hrows row hrow with hnone | hevicted
    · simpa using hsays hnone
    · exact hevicted
  obtain ⟨row, hrow, hevicted⟩ := hevicted
  obtain ⟨hash, hlast⟩ := Option.ne_none_iff_exists'.mp (hsynced.preserved r path row hrow hevicted)
  have hplanned := planPath_gone h.copies habsent hdeleted hrow hlast
  rw [hevicted, if_pos rfl] at hplanned
  have hmem : ⟨path, .deleteLocal⟩ ∈ (r.passPlan w).plan.actions :=
    (Round.mem_actions hplanned).resolve_right fun hhydrate => by cases hhydrate.1
  have hremoves : .removeRow path ∈ r.effects w := passEffects_deleteLocal hcompletes.2.2 hmem
  rw [forgets_iff]
  exact .inl (h.status_removed habsent hcompletes hremoves)

theorem Round.LeavesAbsent.remembers (h : r.LeavesAbsent w path) (habsent : w.tree.Absent path)
    (hdeleted : r.merged.manifest.liveHash path = none) {row : FileRecord} {hash : ContentHash}
    (hrow : (r.preserved w).state.files[path]? = some row)
    (hlast : row.lastSyncedHash = some hash) (hlocal : row.isEvicted = false) :
    (w.pass r).device.files.status path = some (some hash, false) := by
  have hplanned := planPath_gone h.copies habsent hdeleted hrow hlast
  rw [hlocal] at hplanned
  have hquiet : ∀ kind, kind = .deleteLocal ∨ kind = .conflict ∨ kind = .deleteRemote →
      ⟨path, kind⟩ ∉ (r.passPlan w).plan.actions := by
    intro kind hkind hmem
    rcases Round.of_mem_actions hmem with rfl | hdecided | rfl
    · simp at hkind
    · rw [hplanned] at hdecided
      cases hdecided
    · simp at hkind
  have hkept : .removeRow path ∉ r.effects w := by
    intro hmem
    rcases passEffects_removeRow hmem with hmem | hmem | hmem
    · exact hquiet _ (.inl rfl) hmem
    · exact hquiet _ (.inr (.inl rfl)) hmem
    · exact hquiet _ (.inr (.inr rfl)) hmem
  rw [h.status_kept habsent hkept, Baseline.status, hrow, Option.map_some, hlast, hlocal]

/-- Another device has created this version, and the pass gets no further than its plan. -/
def readingAgain (version : DeltaEntry) : Round where
  options := ⟨fun _ => false, ⟨[], [], false⟩, []⟩
  utc := fun _ => "now"
  snapshot := (∅ : Manifest).insert version.path version
  deltas := []
  events := ⟨[], [], fun _ => 0, fun _ => "now"⟩
  reaches := 0

theorem readingAgain_spares (version : DeltaEntry) (t : World) (path : String) :
    (readingAgain version).SparesPath t path := by
  constructor
  · intro c hc
    cases hc
  · intro c hc
    cases hc

theorem readingAgain_deletes (version : DeltaEntry) (hlive : version.deleted = false)
    (habsent : t.tree.Absent version.path)
    (hstatus : t.device.files.status version.path = some (some version.plaintextHash, false)) :
    (readingAgain version).merged.manifest.liveHash version.path = some version.plaintextHash ∧
    ⟨version.path, .deleteRemote⟩ ∈ ((readingAgain version).passPlan t).plan.actions := by
  have hmerged : (readingAgain version).merged.manifest.liveHash version.path =
      some version.plaintextHash := by
    change Manifest.liveHash ((∅ : Manifest).insert version.path version) version.path = _
    simp [Manifest.liveHash, hlive]
  refine ⟨hmerged, ?_⟩
  have hspares := readingAgain_spares version t version.path
  have hplanned := (planPath_recreated hspares habsent hmerged).2 hstatus
  exact (Round.mem_actions hplanned).resolve_right fun hhydrate => by cases hhydrate.1

end Recreated

/-- What another device creates at a path that a completed pass found gone on both sides is always
fetched, and never deleted or taken for a conflict, exactly if that pass found no row of a synced
version there that is not evicted. -/
theorem recreation_fetched_iff {start w : World} {before : List Deed} {first : Round}
    {path : String} (hfresh : start.device.files = ∅)
    (hbefore : Runs World.deed Unguarded start before w) (hcompletes : first.Completes w)
    (habsent : w.tree.Absent path) (hdeleted : first.merged.manifest.liveHash path = none)
    (hstays : first.LeavesAbsent w path) :
    (∀ (deeds : List Deed) (t : World) (later : Round) (hash : ContentHash),
      Runs World.deed (StaysAbsent path) (w.pass first) deeds t → later.SparesPath t path →
      later.merged.manifest.liveHash path = some hash → later.Fetches t path) ↔
    ∀ row, (first.preserved w).state.files[path]? = some row →
      row.lastSyncedHash = none ∨ row.isEvicted = true := by
  constructor
  · intro hfetches row hrow
    by_contra hnot
    rw [not_or, Bool.not_eq_true] at hnot
    obtain ⟨hash, hlast⟩ := Option.ne_none_iff_exists'.mp hnot.1
    have hstatus := hstays.remembers habsent hdeleted hrow hlast hnot.2
    have hgone := hstays.tree habsent
    obtain ⟨hlive, hplanned⟩ :=
      readingAgain_deletes (.sample path "other" 1 hash none) rfl hgone hstatus
    have hspares := readingAgain_spares (.sample path "other" 1 hash none) (w.pass first) path
    exact (hfetches [] _ _ hash (.refl _) hspares hlive).2.1 hplanned
  · intro hrows deeds t later hash hrun hspares hlive
    have hsynced : w.device.files.EvictsSynced := by
      refine hbefore.invariant (I := fun u => u.device.files.EvictsSynced) ?_ ?_
      · intro q row hrow
        rw [hfresh] at hrow
        cases hrow
      · exact fun _ _ _ h _ hstep => h.deed hstep
    have hforgot := hstays.forgot hcompletes habsent hdeleted hsynced hrows
    have hstep : ∀ (u : World) d v, u.Forgot path → StaysAbsent path u d → u.deed d = some v →
        v.Forgot path := fun _ _ _ h hguard hstep => h.step hguard hstep
    exact (hrun.invariant hforgot hstep).fetches hspares hlive

/-- The device has nothing; the first version is read and fetched. -/
def fetchingFirst : Round :=
  { readingAgain (.sample "a" "tablet" 1 10 none) with
    events := ⟨[], [(⟨"a", .download⟩, .downloaded ⟨1, 0, 10⟩)], fun _ => 0, fun _ => "now"⟩
    reaches := 9 }

def freshDevice : World where
  device := { deviceId := "phone", deviceName := "phone", files := ∅, uploads := ∅, lamport := 0,
              manifestGeneration := 0 }
  tree := ∅
  log := ∅

def evictedAndGone : List Deed := [.pass fetchingFirst, .markEvicted "a", .files ∅]

def fetchedAndGone : List Deed := [.pass fetchingFirst, .files ∅]

def readingNothing : Round :=
  { fetchingFirst with
    snapshot := ∅
    events := ⟨[], [], fun _ => 0, fun _ => "now"⟩ }

theorem evictedAndGone_runs : (execute World.deed freshDevice evictedAndGone).isSome := by
  decide +kernel

def evictedDevice : World := (execute World.deed freshDevice evictedAndGone).get evictedAndGone_runs

theorem fetchedAndGone_runs : (execute World.deed freshDevice fetchedAndGone).isSome := by
  decide +kernel

def fetchedDevice : World := (execute World.deed freshDevice fetchedAndGone).get fetchedAndGone_runs

theorem readingNothing_leavesAbsent {w : World}
    (hquiet : ∀ e ∈ readingNothing.effects w, ¬ e.TakesUp "a") :
    readingNothing.LeavesAbsent w "a" := by
  have hspares : ∀ path, SparesSource w.device readingNothing.conflicts path := by
    intro path c hc
    cases hc
  exact ⟨⟨hspares _, hspares _⟩, fun e he => hquiet e (List.mem_of_mem_take he)⟩

theorem recreation_fetched_evicted :
    (readingAgain (.sample "a" "tablet" 3 10 none)).Fetches (evictedDevice.pass readingNothing)
      "a" := by
  have hrun : Runs World.deed Unguarded freshDevice evictedAndGone evictedDevice :=
    execute_runs (Option.some_get _).symm
  have heffects : readingNothing.effects evictedDevice =
      [.deleteLocal "a", .removeRow "a", .recordLamport 3] := by decide +kernel
  have hstays : readingNothing.LeavesAbsent evictedDevice "a" := by
    apply readingNothing_leavesAbsent
    rw [heffects]
    simp [Effect.TakesUp, Effect.Confirms]
  have hiff := recreation_fetched_iff rfl hrun (by decide +kernel) (by decide +kernel)
    (by decide +kernel) hstays
  refine hiff.mpr ?_ [] _ _ 10 (.refl _) (readingAgain_spares _ _ _) (by decide +kernel)
  intro row hrow
  have hevicted : ((readingNothing.preserved evictedDevice).state.files["a"]?).map
      FileRecord.isEvicted = some true := by decide +kernel
  rw [hrow] at hevicted
  exact .inr (Option.some.inj hevicted)

/-- The file was deleted on both sides before a pass. What comes back is deleted remotely, and a
new content is a conflict. -/
theorem recreation_deleted :
    readingNothing.Completes fetchedDevice ∧ fetchedDevice.tree.Absent "a" ∧
    readingNothing.merged.manifest.liveHash "a" = none ∧
    readingNothing.LeavesAbsent fetchedDevice "a" ∧
    ((readingAgain (.sample "a" "tablet" 3 10 none)).passPlan
      (fetchedDevice.pass readingNothing)).plan.actions = [⟨"a", .deleteRemote⟩] ∧
    ((readingAgain (.sample "a" "tablet" 3 11 none)).passPlan
      (fetchedDevice.pass readingNothing)).plan.actions = [⟨"a", .conflict⟩] := by
  refine ⟨?_, ?_, ?_, ?_, ?_, ?_⟩
  · decide +kernel
  · decide +kernel
  · decide +kernel
  · have heffects : readingNothing.effects fetchedDevice = [.recordLamport 3] := by
      decide +kernel
    apply readingNothing_leavesAbsent
    rw [heffects]
    simp [Effect.TakesUp, Effect.Confirms]
  · decide +kernel
  · decide +kernel

end FileMirror
