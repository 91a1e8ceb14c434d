import FileMirror.Eviction
import FileMirror.SparingPasses

set_option autoImplicit false

namespace FileMirror

open Transitions WriteAhead

/-- An effect that keeps what is known of the path; `present` says that the file is in place. -/
def Effect.LeavesAlone (present : Prop) (path : String) (hash : ContentHash) : Effect → Prop
  | .confirmSync p _ _ h => p = path → h = hash ∧ present
  | .writePlaceholder stub => stub.path ≠ path
  | .confirmPlaceholder p _ _ | .removeRow p => p ≠ path
  | .deleteLocal p => p ≠ path ∧ p ≠ stubRel path
  | .setAside p target => p ≠ path ∧ p ≠ stubRel path ∧ target ≠ path ∧ target ≠ stubRel path
  | _ => True

def Effect.SparesFiles (path : String) : Effect → Prop
  | .writePlaceholder stub => stub.path ≠ path
  | .deleteLocal p => p ≠ path ∧ p ≠ stubRel path
  | .setAside p target => p ≠ path ∧ p ≠ stubRel path ∧ target ≠ path ∧ target ≠ stubRel path
  | _ => True

section Effects

variable {present : Prop} {path : String} {hash : ContentHash} {e : Effect} {w : World}
  {now : String → ℕ} {record : FileRecord}

theorem Effect.SparesFiles.tree (h : e.SparesFiles path) (hname : Mirrorable path) :
    (w.run now e).tree[path]? = w.tree[path]? ∧
      (w.run now e).tree[stubRel path]? = w.tree[stubRel path]? := by
  cases e with
  | writePlaceholder stub =>
      have hne : stubRel stub.path ≠ stubRel path := fun heq => h (stubRel_injective heq)
      simp only [World.run]
      rw [StringMap.getElem?_insert, StringMap.getElem?_insert, if_neg hne,
        if_neg (hname.ne_stubRel _).symm]
      exact ⟨rfl, rfl⟩
  | deleteLocal p =>
      have hne : stubRel p ≠ stubRel path := fun heq => h.1 (stubRel_injective heq)
      simp only [World.run]
      rw [StringMap.getElem?_erase, StringMap.getElem?_erase, StringMap.getElem?_erase,
        StringMap.getElem?_erase, if_neg hne, if_neg (hname.ne_stubRel _).symm, if_neg h.1,
        if_neg h.2]
      exact ⟨rfl, rfl⟩
  | setAside p target =>
      obtain ⟨hfile, hstub, htarget, htargetStub⟩ := h
      exact ⟨getElem?_rename_other hfile.symm htarget.symm,
        getElem?_rename_other hstub.symm htargetStub.symm⟩
  | _ => exact ⟨rfl, rfl⟩

theorem Effect.LeavesAlone.sparesFiles (h : e.LeavesAlone present path hash) :
    e.SparesFiles path := by
  cases e <;> first | exact h | trivial

theorem DeviceState.Agreed.insert_other {s : DeviceState} {p : String} {row : FileRecord}
    (h : s.Agreed path hash record) (hne : p ≠ path) :
    DeviceState.Agreed { s with files := s.files.insert p row } path hash record := by
  obtain ⟨hrow, hsame⟩ := h
  refine ⟨?_, hsame⟩
  rw [StringMap.getElem?_insert, if_neg hne]
  exact hrow

theorem agreed_insert {s : DeviceState} {row : FileRecord} (hsynced : row.lastSyncedHash = some hash)
    (hcontent : row.contentHash = hash) :
    DeviceState.Agreed { s with files := s.files.insert path row } path hash row := by
  refine ⟨?_, hsynced, hcontent⟩
  rw [StringMap.getElem?_insert, if_pos rfl]

theorem Effect.LeavesAlone.row (h : e.LeavesAlone present path hash)
    (hrow : w.device.Agreed path hash record) : ∃ record',
      (w.run now e).device.Agreed path hash record' ∧
        (present ∨ record'.isEvicted = record.isEvicted) := by
  cases e with
  | confirmSync p size mtimeNs content =>
      by_cases hp : p = path
      · subst hp
        obtain ⟨rfl, hpresent⟩ := h rfl
        exact ⟨_, agreed_insert rfl rfl, .inl hpresent⟩
      · exact ⟨record, hrow.insert_other hp, .inr rfl⟩
  | recordHydrated p =>
      simp only [World.run, DeviceState.recordHydrated, DeviceState.updateRow]
      by_cases hp : p = path
      · subst hp
        obtain ⟨hfile, hsynced, hcontent⟩ := hrow
        rw [hfile]
        exact ⟨{ record with lastHydratedAt := some ↑(now p) }, agreed_insert hsynced hcontent,
          .inr rfl⟩
      · cases w.device.files[p]? with
        | none => exact ⟨record, hrow, .inr rfl⟩
        | some other => exact ⟨record, hrow.insert_other hp, .inr rfl⟩
  | confirmPlaceholder p size content => exact ⟨record, hrow.insert_other h, .inr rfl⟩
  | removeRow p =>
      refine ⟨record, ⟨?_, hrow.2⟩, .inr rfl⟩
      simp only [World.run, DeviceState.remove]
      rw [StringMap.getElem?_erase, if_neg h]
      exact hrow.1
  | _ => exact ⟨record, hrow, .inr rfl⟩

def World.Between (w : World) (present : Prop) (path : String) (hash : ContentHash) : Prop :=
  w.Recoverable path hash ∧ (present → w.tree.HoldsReal path hash)

theorem World.Between.run (h : w.Between present path hash) (hname : Mirrorable path)
    (he : e.LeavesAlone present path hash) : (w.run now e).Between present path hash := by
  obtain ⟨⟨record, hrow, hheld⟩, hpresent⟩ := h
  obtain ⟨hfile, hplaceholder⟩ : (w.run now e).tree[path]? = w.tree[path]? ∧
      (w.run now e).tree[stubRel path]? = w.tree[stubRel path]? := he.sparesFiles.tree hname
  have hreal : w.tree.HoldsReal path hash → (w.run now e).tree.HoldsReal path hash := by
    rintro ⟨file, hat, hsame⟩
    exact ⟨file, hfile.trans hat, hsame⟩
  obtain ⟨record', hrow', hkept⟩ : ∃ record', (w.run now e).device.Agreed path hash record' ∧
      (present ∨ record'.isEvicted = record.isEvicted) := he.row hrow
  refine ⟨⟨record', hrow', ?_⟩, fun hp => hreal (hpresent hp)⟩
  rcases hheld with hheld | ⟨hevicted, habsent, file, stub, hat, hread⟩
  · exact .inl (hreal hheld)
  · rcases hkept with hp | hsame
    · exact .inl (hreal (hpresent hp))
    · exact .inr ⟨hsame.trans hevicted, hfile.trans habsent, file, stub,
        hplaceholder.trans hat, hread⟩

theorem recordScan_agreed {s : DeviceState} {entries : List LocalEntry}
    (hall : ∀ e ∈ entries, e.path = path → e.hash = hash) (hrow : s.Agreed path hash record) :
    ∃ record', (s.recordScan entries).Agreed path hash record' ∧
      ((∀ e ∈ entries, e.path ≠ path) → record' = record) := by
  induction entries generalizing s record with
  | nil => exact ⟨record, hrow, fun _ => rfl⟩
  | cons e entries ih =>
      have hrest : ∀ e ∈ entries, e.path = path → e.hash = hash := fun e he =>
        hall e (List.mem_cons_of_mem _ he)
      by_cases hp : e.path = path
      · have hhash := hall e (List.mem_cons_self ..) hp
        have hbase : Baseline.lastSynced s.files e.path = some hash := by
          rw [hp, Baseline.lastSynced, hrow.1, Option.bind_some, hrow.2.1]
        subst hp
        have hscanned : ∃ row, (s.recordScanEntry e).Agreed e.path hash row :=
          ⟨_, agreed_insert (by exact hbase) (by exact hhash)⟩
        obtain ⟨row, hscanned⟩ := hscanned
        obtain ⟨record', hrow', -⟩ := ih hrest hscanned
        exact ⟨record', hrow', fun hother => absurd rfl (hother e (List.mem_cons_self ..))⟩
      · obtain ⟨record', hrow', hsame⟩ := ih hrest (hrow.insert_other hp)
        exact ⟨record', hrow', fun hother => hsame fun e he => hother e (List.mem_cons_of_mem _ he)⟩

end Effects

section Passes

variable {r : Round} {w : World} {path : String} {hash : ContentHash} {fetches : List Fetch}
  {record : FileRecord} {e : Effect}

theorem Round.LeavesAlone.effects (hspares : r.LeavesAlone w path hash) (hname : Mirrorable path)
    (htransfers : r.Transfers w fetches)
    (hplans : ∀ kind, ⟨path, kind⟩ ∈ (r.passPlan w).plan.actions → kind = .hydrate)
    (he : e ∈ r.effects w) :
    e.LeavesAlone ((r.fetched w fetches).HoldsReal path hash) path hash := by
  have horigin : e.Origin (r.passPlan w).plan.actions r.events w.device.deviceName := by
    rw [← (hspares.clears hname).deviceName]
    exact passEffects_origin he
  have hfits := htransfers.fits
  simp only [PassEvents.fits, Bool.and_eq_true, List.all_eq_true, decide_eq_true_eq] at hfits
  have hjoined : ∀ action outcome, (action, outcome) ∈ r.events.joined → action.path = path →
      outcome.fits .hydrate = true := by
    rintro ⟨p, kind⟩ outcome hmem rfl
    obtain ⟨haction, hfit⟩ := hfits.2 _ hmem
    rw [← hplans kind (List.mem_of_mem_filter haction)]
    exact hfit
  have hplaced : ¬ Placed (r.passPlan w).plan.actions r.events path := by
    rintro (h | h | ⟨action, result, hmem, hpath⟩)
    · cases hplans _ h
    · cases hplans _ h
    · simpa [Outcome.fits] using hjoined _ _ hmem hpath
  cases e with
  | confirmSync p size mtimeNs content =>
      rintro rfl
      rcases horigin with ⟨result, hsent, -⟩ | ⟨action, d, hmem, hpath, rfl⟩
      · exfalso
        rcases hsent with ⟨action, hmem, hpath⟩ | ⟨u, hmem, hpath⟩
        · simpa [Outcome.fits] using hjoined _ _ hmem hpath
        · exact (hspares.resumed _ hmem).1 (hpath ▸ hname.canonical)
      · obtain ⟨f, hf, entry, haction, -, -, hentry, hsame⟩ := htransfers.done _ _ hmem
        rw [hpath] at hentry
        refine ⟨hsame.trans (hspares.fetched_entry hname hentry).2, ?_⟩
        exact hspares.fetchAll_own hname hf (haction ▸ hpath) hentry
  | writePlaceholder stub => exact fun hpath => hplaced (hpath ▸ horigin)
  | confirmPlaceholder p size content => exact fun hpath => hplaced (hpath ▸ horigin)
  | removeRow p =>
      rintro rfl
      obtain ⟨kind, hmem, hkind⟩ := horigin
      rw [hplans kind hmem] at hkind
      simp at hkind
  | deleteLocal p =>
      constructor
      · rintro rfl
        cases hplans _ horigin
      · rintro rfl
        cases hspares.reserved hname horigin
  | setAside p target =>
      obtain ⟨hmem, htarget⟩ := horigin
      obtain ⟨hcopy, hcopyStub⟩ := hspares.copies p
      refine ⟨?_, ?_, fun heq => hcopy (heq ▸ htarget), fun heq => hcopyStub (heq ▸ htarget)⟩
      · rintro rfl
        cases hplans _ hmem
      · rintro rfl
        cases hspares.reserved hname hmem
  | _ => trivial

theorem LocalTree.HoldsReal.congr {t t' : LocalTree} (h : t.HoldsReal path hash)
    (hfile : t'[path]? = t[path]?) : t'.HoldsReal path hash := by
  obtain ⟨file, hat, hsame⟩ := h
  exact ⟨file, hfile.trans hat, hsame⟩

theorem LocalTree.HoldsStub.congr {t t' : LocalTree} (h : t.HoldsStub path hash)
    (hfile : t'[path]? = t[path]?) (hstub : t'[stubRel path]? = t[stubRel path]?) :
    t'.HoldsStub path hash := by
  obtain ⟨habsent, file, stub, hat, hread⟩ := h
  exact ⟨hfile.trans habsent, file, stub, hstub.trans hat, hread⟩

theorem Round.LeavesAlone.fetched_real (hspares : r.LeavesAlone w path hash)
    (hname : Mirrorable path) (hsettled : w.Settled path hash)
    (hreal : w.tree.HoldsReal path hash) : (r.fetched w fetches).HoldsReal path hash := by
  have hspared := hspares.preserved hname hsettled
  exact hspares.fetchAll_real hname
    (hreal.congr ((Round.planned_file hname).trans hspared.file))

theorem Round.LeavesAlone.fetched_stub (hspares : r.LeavesAlone w path hash)
    (hname : Mirrorable path) (hsettled : w.Settled path hash)
    (hstub : w.tree.HoldsStub path hash) : (r.fetched w fetches).HoldsReal path hash ∨
      (r.fetched w fetches).HoldsStub path hash := by
  have hspared := hspares.preserved hname hsettled
  have habsent : (r.preserved w).tree[path]? = none := hspared.file.trans hstub.1
  exact hspares.fetchAll_stub hname (hstub.congr ((Round.planned_file hname).trans hspared.file)
    ((Round.planned_stub habsent).trans hspared.stub))

theorem World.Recoverable.passFetching (h : w.Recoverable path hash) (hname : Mirrorable path)
    (hspares : r.LeavesAlone w path hash)
    (hfinds : excluded r.options.ignored (stubRel path) = false)
    (htransfers : r.Transfers w fetches) : (w.passFetching r fetches).Recoverable path hash := by
  have hsettled := h.settled
  have hspared := hspares.preserved hname hsettled
  obtain ⟨record, hrow, hheld⟩ := h
  have hrow' : (r.planned w).device.Agreed path hash record :=
    ⟨hspared.row.trans hrow.1, hrow.2⟩
  unfold World.passFetching
  by_cases hpreserved : (preserveConflictLosers r.conflicts w.tree w.device).2 = true
  swap
  · rw [if_neg hpreserved]
    refine ⟨record, hrow', hheld.imp (fun hreal => hreal.congr hspared.file) ?_⟩
    exact And.imp_right fun hstub => hstub.congr hspared.file hspared.stub
  rw [if_pos hpreserved]
  have hplans : ∀ kind, ⟨path, kind⟩ ∈ (r.passPlan w).plan.actions → kind = .hydrate := by
    intro kind hmem
    rcases hheld with hreal | ⟨hevicted, hstub⟩
    · exact absurd hmem ((hspares.real hname hrow hreal).2 kind)
    · exact hspares.stub hname hfinds hrow hevicted hstub hmem
  set start : World := { r.planned w with tree := r.fetched w fetches } with hstart
  have hbetween : start.Between ((r.fetched w fetches).HoldsReal path hash) path hash := by
    refine ⟨⟨record, hrow', ?_⟩, id⟩
    rcases hheld with hreal | ⟨hevicted, hstub⟩
    · exact .inl (hspares.fetched_real hname hsettled hreal)
    · exact (hspares.fetched_stub hname hsettled hstub).imp_right fun hstub => ⟨hevicted, hstub⟩
  have hcut : Cut (World.run r.events.unix) start (r.effects w)
      (((r.effects w).take r.reaches).foldl (World.run r.events.unix) start) := ⟨r.reaches, rfl⟩
  have hended := hcut.invariant
    (I := fun u => u.Between ((r.fetched w fetches).HoldsReal path hash) path hash) hbetween
    fun u e he hu => hu.run hname (hspares.effects hname htransfers hplans he)
  simp only
  split_ifs
  · -- the row is scanned again only where the file was found
    obtain ⟨⟨record', hagreed, hnow⟩, hpresent⟩ := hended
    rcases hheld with hreal | ⟨-, hstub⟩
    · have hscan := (hspares.real hname hrow hreal).1
      obtain ⟨record'', hscanned, -⟩ := recordScan_agreed hscan hagreed
      exact ⟨record'', hscanned, .inl (hpresent (hspares.fetched_real hname hsettled hreal))⟩
    · have hnone := (hspares.placeholder hname hstub.1).1
      rw [localHash_eq_none] at hnone
      obtain ⟨record'', hscanned, hsame⟩ :=
        recordScan_agreed (fun e he hpath => absurd hpath (hnone e he)) hagreed
      rw [hsame hnone] at hscanned
      exact ⟨record', hscanned, hnow⟩
  · exact hended.1

theorem World.Recoverable.not_deleted (h : w.Recoverable path hash) (hname : Mirrorable path)
    (hspares : r.LeavesAlone w path hash)
    (hfinds : excluded r.options.ignored (stubRel path) = false) :
    ⟨path, .deleteRemote⟩ ∉ (r.passPlan w).plan.actions := by
  obtain ⟨record, hrow, hreal | ⟨hevicted, hstub⟩⟩ := h
  · exact (hspares.real hname hrow hreal).2 _
  · intro hmem
    cases hspares.stub hname hfinds hrow hevicted hstub hmem

end Passes

/-- `evict_one` as far as it gets. -/
def World.evict (w : World) (manifest : Manifest) (record : FileRecord)
    (pendingUploads : List String) (events : EvictEvents) (reaches : ℕ) : World :=
  ((evictOne w.tree manifest (some record) pendingUploads events).1.take reaches).foldl
    World.evicting w

/-- The eviction is of the row's own file: of this path's, which is not written to in between and
whose placeholder can be read back, or of another's. -/
structure EvictLeavesAlone (w : World) (manifest : Manifest) (record : FileRecord)
    (events : EvictEvents) (path : String) (hash : ContentHash) : Prop where
  row : w.device.files[record.path]? = some record
  unwritten : record.path = path → events.aside.settled = true ∧ events.aside.contents = hash
  readable : record.path = path → ∀ entry file, manifest[path]? = some entry →
    w.tree[path]? = some file → (evictStub record entry file events).textLen ≤ maxStubLen
  others : record.path ≠ path →
    safeJoin record.path ≠ some path ∧ safeJoin record.path ≠ some (stubRel path)

section Evictions

variable {w : World} {manifest : Manifest} {record : FileRecord} {pendingUploads : List String}
  {events : EvictEvents} {entry : DeltaEntry} {target path : String} {file : DiskFile}
  {hash : ContentHash} {reaches : ℕ} {s : DeviceState}

theorem DeviceState.Agreed.updateRow_other {p : String} {f : FileRecord → FileRecord}
    (h : s.Agreed path hash record) (hne : p ≠ path) :
    (s.updateRow p f).Agreed path hash record := by
  unfold DeviceState.updateRow
  cases s.files[p]? with
  | none => exact h
  | some other => exact h.insert_other hne

theorem DeviceState.Agreed.updateRow {f : FileRecord → FileRecord}
    (h : s.Agreed path hash record) (hsynced : (f record).lastSyncedHash = some hash)
    (hcontent : (f record).contentHash = hash) :
    (s.updateRow path f).Agreed path hash (f record) := by
  unfold DeviceState.updateRow
  rw [h.1]
  exact agreed_insert hsynced hcontent

theorem markEvicted_absent {p : String} (hne : p ≠ path) (h : s.files[path]? = none) :
    (s.markEvicted p).files[path]? = none := by
  unfold DeviceState.markEvicted DeviceState.updateRow
  cases s.files[p]? with
  | none => exact h
  | some other => rw [StringMap.getElem?_insert, if_neg hne, h]

theorem evicting_other (h : w.Recoverable path hash) (hname : Mirrorable path)
    (hother : record.path ≠ path) (htarget : target ≠ path) (htargetStub : target ≠ stubRel path)
    {e : EvictEffect} (he : e ∈ evictEffects record entry target file events) :
    (w.evicting e).Recoverable path hash := by
  obtain ⟨kept, hrow, hheld⟩ := h
  have hstub : stubRel record.path ≠ stubRel path := fun heq => hother (stubRel_injective heq)
  have hreserved : stubRel record.path ≠ path := (hname.ne_stubRel _).symm
  have hframe : ∀ t : LocalTree, t[path]? = w.tree[path]? →
      t[stubRel path]? = w.tree[stubRel path]? →
      t.HoldsReal path hash ∨ kept.isEvicted = true ∧ t.HoldsStub path hash := fun t hfile hplace =>
    hheld.imp (fun hreal => hreal.congr hfile) (And.imp_right fun h => h.congr hfile hplace)
  have hcases : e ∈ [.markEvicted record.path,
      .writePlaceholder (evictStub record entry file events), .moveAside target, .unlinkAside,
      .putBack target events.aside, .removePlaceholder record.path, .markLocal record.path] := by
    rcases List.mem_append.mp he with hfirst | hlast
    · exact List.mem_append_left [_, _, _, _] hfirst
    · refine List.mem_append_right [_, _, _] ?_
      split_ifs at hlast
      · exact List.mem_append_left [_, _, _] hlast
      · exact List.mem_append_right [_] hlast
  simp only [List.mem_cons, List.not_mem_nil, or_false] at hcases
  rcases hcases with rfl | rfl | rfl | rfl | rfl | rfl | rfl
  · exact ⟨kept, hrow.updateRow_other hother, hheld⟩
  · refine ⟨kept, hrow, hframe _ ?_ ?_⟩
    · exact (StringMap.getElem?_insert ..).trans (if_neg hreserved)
    · exact (StringMap.getElem?_insert ..).trans (if_neg hstub)
  · refine ⟨kept, hrow, hframe _ ?_ ?_⟩
    · exact (StringMap.getElem?_erase ..).trans (if_neg htarget)
    · exact (StringMap.getElem?_erase ..).trans (if_neg htargetStub)
  · exact ⟨kept, hrow, hheld⟩
  · refine ⟨kept, hrow, hframe _ ?_ ?_⟩
    · exact (StringMap.getElem?_insert ..).trans (if_neg htarget)
    · exact (StringMap.getElem?_insert ..).trans (if_neg htargetStub)
  · refine ⟨kept, hrow, hframe _ ?_ ?_⟩
    · exact (StringMap.getElem?_erase ..).trans (if_neg hreserved)
    · exact (StringMap.getElem?_erase ..).trans (if_neg hstub)
  · exact ⟨kept, hrow.updateRow_other hother, hheld⟩

theorem evicting_own {t : World} (hrow : w.device.Agreed path hash record) (hreal : w.tree.HoldsReal path hash)
    (hpath : record.path = path) (hremote : entry.plaintextHash = hash)
    (haside : events.aside.settled = true ∧ events.aside.contents = hash)
    (hreadable : (evictStub record entry file events).textLen ≤ maxStubLen)
    (hcut : Cut World.evicting w (evictEffects record entry path file events) t) :
    t.Recoverable path hash := by
  set stub := evictStub record entry file events with hstub
  have hstubPath : stub.path = path := hpath
  have hmarked : (w.device.markEvicted path).Agreed path hash
      { record with residency := .evicted } := hrow.updateRow hrow.2.1 hrow.2.2
  have hne := stubRel_ne path
  unfold evictEffects at hcut
  rw [hpath, ← hstub, List.cons_append, cut_cons, List.cons_append, cut_cons, List.cons_append,
    cut_cons, List.nil_append] at hcut
  rcases hcut with rfl | rfl | rfl | hcut
  · exact ⟨record, hrow, .inl hreal⟩
  · exact ⟨_, hmarked, .inl hreal⟩
  · refine ⟨_, hmarked, .inl (hreal.congr ?_)⟩
    exact (StringMap.getElem?_insert ..).trans (if_neg (hstubPath ▸ hne))
  · -- the file is aside, and the placeholder stands in
    have haway : ((((w.evicting (.markEvicted path)).evicting (.writePlaceholder stub)).evicting
        (.moveAside path))).Recoverable path hash := by
      refine ⟨_, hmarked, .inr ⟨rfl, ?_, stubFile stub, stub, ?_, ?_, hstubPath, ?_⟩⟩
      · exact (StringMap.getElem?_erase ..).trans (if_pos rfl)
      · refine (StringMap.getElem?_erase ..).trans ((if_neg hne.symm).trans ?_)
        exact (StringMap.getElem?_insert ..).trans (if_pos (hstubPath ▸ rfl))
      · exact if_pos hreadable
      · rw [← hremote]
        rfl
    split_ifs at hcut with hstat
    · rw [cut_cons, cut_nil] at hcut
      rcases hcut with rfl | rfl
      · exact haway
      · exact haway
    · rw [cut_cons, cut_cons, cut_cons, cut_nil] at hcut
      have hback : ∀ u : World, ((u.evicting (.putBack path events.aside)).tree).HoldsReal path
          hash := fun u =>
        ⟨events.aside, (StringMap.getElem?_insert ..).trans (if_pos rfl), haside⟩
      have hcleared : ∀ u : World, u.tree.HoldsReal path hash →
          (u.evicting (.removePlaceholder path)).tree.HoldsReal path hash := fun u hu =>
        hu.congr ((StringMap.getElem?_erase ..).trans (if_neg hne))
      rcases hcut with rfl | rfl | rfl | rfl
      · exact haway
      · exact ⟨_, hmarked, .inl (hback _)⟩
      · exact ⟨_, hmarked, .inl (hcleared _ (hback _))⟩
      · exact ⟨_, hmarked.updateRow hmarked.2.1 hmarked.2.2, .inl (hcleared _ (hback _))⟩

theorem World.Recoverable.evict (h : w.Recoverable path hash) (hname : Mirrorable path)
    (hspares : EvictLeavesAlone w manifest record events path hash) :
    (w.evict manifest record pendingUploads events reaches).Recoverable path hash := by
  by_cases hbegins : (evictOne w.tree manifest (some record) pendingUploads events).1 = []
  · rw [World.evict, hbegins, List.take_nil]
    exact h
  obtain ⟨entry, target, file, hagrees, heffects⟩ := evictOne_begins hbegins
  rw [World.evict, heffects]
  have hcut : Cut World.evicting w (evictEffects record entry target file events)
      (((evictEffects record entry target file events).take reaches).foldl World.evicting w) :=
    ⟨reaches, rfl⟩
  by_cases hpath : record.path = path
  · obtain ⟨kept, hrow, hheld⟩ := h
    have hsame : kept = record := by
      have hfile := hspares.row
      rw [hpath, hrow.1, Option.some.injEq] at hfile
      exact hfile
    subst hsame
    have hreal : w.tree.HoldsReal path hash := by
      rcases hheld with hreal | ⟨hevicted, -⟩
      · exact hreal
      · rw [hagrees.resident] at hevicted
        cases hevicted
    have htarget : target = path := by
      have hnamed := hagrees.named
      rw [hpath, hname.canonical, Option.some.injEq] at hnamed
      exact hnamed.symm
    have hlisted := hagrees.listed
    have hfound := hagrees.found
    rw [hpath] at hlisted
    rw [htarget] at hfound hcut ⊢
    exact evicting_own hrow hreal hpath (hagrees.remote.trans hrow.2.2)
      (hspares.unwritten hpath) (hspares.readable hpath entry file hlisted hfound) hcut
  · obtain ⟨hfile, hplaceholder⟩ := hspares.others hpath
    have htarget : target ≠ path := fun heq => hfile (heq ▸ hagrees.named)
    have htargetStub : target ≠ stubRel path := fun heq => hplaceholder (heq ▸ hagrees.named)
    exact hcut.invariant (I := fun u => u.Recoverable path hash) h fun u e he hu =>
      evicting_other hu hname hpath htarget htargetStub he

theorem evict_moved (hpath : record.path = path)
    (heffects : (evictOne w.tree manifest (some record) pendingUploads events).1 =
      evictEffects record entry path file events)
    (hstat : events.aside.stat = file.stat) (hreaches : 2 < reaches) :
    w.evict manifest record pendingUploads events reaches =
      { w with
        device := w.device.markEvicted path
        tree := (w.tree.insert (stubRel path)
          (stubFile (evictStub record entry file events))).erase path } := by
  subst hpath
  rw [World.evict, heffects, evictEffects, if_pos hstat]
  obtain ⟨n, rfl⟩ : ∃ n, reaches = n + 3 := ⟨reaches - 3, by omega⟩
  cases n with
  | zero => rfl
  | succ n =>
      simp only [List.cons_append, List.nil_append, List.take_succ_cons, List.take_nil]
      rfl

theorem evict_absent {other : String} (hpath : record.path = path)
    (heffects : (evictOne w.tree manifest (some record) pendingUploads events).1 =
      evictEffects record entry path file events)
    (hstat : events.aside.stat = file.stat) (hreaches : 2 < reaches) (hne : path ≠ other)
    (h : w.device.files[other]? = none) :
    (w.evict manifest record pendingUploads events reaches).device.files[other]? = none := by
  rw [evict_moved hpath heffects hstat hreaches]
  exact markEvicted_absent hne h

/-- After an eviction that has got past the move, a pass takes the path for deleted exactly if the
placeholder is hidden from it or too long to be read. -/
theorem evicted_deleted_iff {r : Round} (hname : Mirrorable path)
    (hrow : w.device.Agreed path hash record) (hpath : record.path = path)
    (heffects : (evictOne w.tree manifest (some record) pendingUploads events).1 =
      evictEffects record entry path file events)
    (hstat : events.aside.stat = file.stat) (hreaches : 2 < reaches)
    (hspares : r.LeavesAlone (w.evict manifest record pendingUploads events reaches) path hash) :
    ⟨path, .deleteRemote⟩ ∈
        (r.passPlan (w.evict manifest record pendingUploads events reaches)).plan.actions ↔
      excluded r.options.ignored (stubRel path) = true ∨
        maxStubLen < (evictStub record entry file events).textLen := by
  have hevict := evict_moved hpath heffects hstat hreaches
  set stub := evictStub record entry file events with hstub
  rw [hevict] at hspares ⊢
  have hmarked : (w.device.markEvicted path).Agreed path hash
      { record with residency := .evicted } := hrow.updateRow hrow.2.1 hrow.2.2
  have hne := stubRel_ne path
  have habsent : ((w.tree.insert (stubRel path) (stubFile stub)).erase path)[path]? = none :=
    (StringMap.getElem?_erase ..).trans (if_pos rfl)
  have hplaced : ((w.tree.insert (stubRel path) (stubFile stub)).erase path)[stubRel path]? =
      some (stubFile stub) := by
    refine (StringMap.getElem?_erase ..).trans ((if_neg hne.symm).trans ?_)
    exact (StringMap.getElem?_insert ..).trans (if_pos rfl)
  obtain ⟨hnone, hfound⟩ := hspares.placeholder hname habsent
  have hbase := (hspares.preserved hname ⟨_, hmarked, .inr habsent⟩).row.trans hmarked.1
  rw [Round.mem_deleteRemote hspares.live, Round.Gone, hfound, hplaced, Round.lastSynced,
    Baseline.lastSynced, hbase, hspares.live, and_iff_right hnone]
  simp only [Option.bind_some, hrow.2.1, and_true, stubFile]
  cases excluded r.options.ignored (stubRel path) <;> simp

end Evictions

section Texts

theorem jsonStringLen_le (s : String) : s.toList.length + 2 ≤ jsonStringLen s := by
  have hpos : ∀ c, 1 ≤ jsonCharLen c := by
    intro c
    unfold jsonCharLen
    split_ifs
    · omega
    · omega
    · exact c.utf8Size_pos
  have hsum : ∀ cs : List Char, cs.length ≤ (cs.map jsonCharLen).sum := by
    intro cs
    induction cs with
    | nil => exact Nat.zero_le _
    | cons c cs ih =>
        have hc := hpos c
        rw [List.map_cons, List.sum_cons, List.length_cons]
        omega
  exact Nat.add_le_add_right (hsum _) 2

theorem StubMeta.le_textLen (stub : StubMeta) :
    jsonStringLen stub.path + jsonStringLen stub.hash + 61 ≤ stub.textLen := by
  unfold StubMeta.textLen
  omega

theorem safeJoin_slashed {parts : List (List Char)} (hparts : parts ≠ [])
    (hproper : ∀ part ∈ parts, '/' ∉ part ∧ part ≠ [] ∧ part ≠ ['.'] ∧ part ≠ ['.', '.']) :
    safeJoin (String.ofList (slashed parts)) = some (String.ofList (slashed parts)) := by
  have hsplit : (slashed parts).splitOn '/' = parts :=
    List.splitOn_intercalate _ (fun part hpart => (hproper part hpart).1) hparts
  unfold safeJoin normalComponents
  simp only [String.toList_ofList, hsplit]
  obtain ⟨first, rest, rfl⟩ := List.exists_cons_of_ne_nil hparts
  obtain ⟨hslash, hempty, hdot, -⟩ := hproper first (List.mem_cons_self ..)
  have hroot : (slashed (first :: rest)).head? ≠ some '/' := by
    obtain ⟨c, first, rfl⟩ := List.exists_cons_of_ne_nil hempty
    intro h
    have hc : c = '/' := by
      cases rest <;> simpa [slashed, List.intercalate_cons_cons] using h
    exact hslash (hc ▸ List.mem_cons_self ..)
  have hparent : ['.', '.'] ∉ first :: rest := fun h => (hproper _ h).2.2.2 rfl
  rw [if_neg, Option.map_some, List.filter_eq_self.mpr]
  · intro part hpart
    obtain ⟨-, hne, hndot, -⟩ := hproper part hpart
    simp [hne, hndot]
  · rintro (h | h | h)
    · exact hroot h
    · rw [List.head?_cons, Option.some.injEq] at h
      exact hdot h
    · exact hparent h

theorem single_self {β : Type} (k : String) (v : β) : (StringMap.single k v)[k]? = some v := by
  rw [StringMap.single, StringMap.getElem?_insert, if_pos rfl]

theorem single_other {β : Type} {k k' : String} (v : β) (h : k ≠ k') :
    (StringMap.single k v)[k']? = none := by
  rw [StringMap.single, StringMap.getElem?_insert, if_neg h]
  rfl

end Texts

theorem evictOne_agrees {tree : LocalTree} {manifest : Manifest} {record : FileRecord}
    {pendingUploads : List String} {events : EvictEvents} {entry : DeltaEntry} {target : String}
    {file : DiskFile}
    (h : EvictionAgrees tree manifest record pendingUploads events entry target file)
    (hverified : events.verified = true) :
    (evictOne tree manifest (some record) pendingUploads events).1 =
      evictEffects record entry target file events := by
  have heligible : eligible (some record) manifest pendingUploads = .ok () := by
    simp [eligible, h.resident, h.synced, h.idle, h.listed, h.live, h.remote]
  simp [evictOne, heligible, h.listed, h.named, h.found, DiskFile.hashStable, h.settled,
    h.contents, h.remote, h.object, hverified]

/-- What comes after an eviction is begun: passes, and evictions of this and other files. -/
inductive LaterStep where
  | pass (round : Round) (fetches : List Fetch)
  | evict (manifest : Manifest) (record : FileRecord) (pendingUploads : List String)
      (events : EvictEvents) (reaches : ℕ)

def World.later (w : World) : LaterStep → Option World
  | .pass r fetches => some (w.passFetching r fetches)
  | .evict manifest record pendingUploads events reaches =>
      some (w.evict manifest record pendingUploads events reaches)

/-- The step finds the path as it was synced, and its placeholder where it looks for it. -/
def Undisturbed (path : String) (hash : ContentHash) (w : World) : LaterStep → Prop
  | .pass r fetches => r.LeavesAlone w path hash ∧
      excluded r.options.ignored (stubRel path) = false ∧ r.Transfers w fetches
  | .evict manifest record _ events _ => EvictLeavesAlone w manifest record events path hash

theorem World.Recoverable.later {w t : World} {path : String} {hash : ContentHash}
    {step : LaterStep} (h : w.Recoverable path hash) (hname : Mirrorable path)
    (hundisturbed : Undisturbed path hash w step) (hstep : w.later step = some t) :
    t.Recoverable path hash := by
  cases step with
  | pass r fetches =>
      obtain ⟨hspares, hfinds, htransfers⟩ := hundisturbed
      cases hstep
      exact h.passFetching hname hspares hfinds htransfers
  | evict manifest record pendingUploads events reaches =>
      cases hstep
      exact h.evict hname hundisturbed

/-- An eviction does nothing unless the row, the file and the remote agree. Wherever it and the
undisturbed steps after it are cut off, the content is at its path or the placeholder stands in for
an evicted row, and no pass takes the path for deleted; where the placeholder is hidden or too long
to be read, the next pass does. -/
theorem eviction_recoverable {w : World} {manifest : Manifest} {record : FileRecord}
    {pendingUploads : List String} {events : EvictEvents}
    (hrecord : w.device.files[record.path]? = some record)
    (hbegins : (evictOne w.tree manifest (some record) pendingUploads events).1 ≠ []) :
    ∃ entry target file,
      EvictionAgrees w.tree manifest record pendingUploads events entry target file ∧
      (Mirrorable record.path →
        (∀ reaches steps t, Runs World.later (Undisturbed record.path record.contentHash) w
            (.evict manifest record pendingUploads events reaches :: steps) t →
          t.Recoverable record.path record.contentHash ∧
          ∀ r : Round, r.LeavesAlone t record.path record.contentHash →
            excluded r.options.ignored (stubRel record.path) = false →
            ⟨record.path, .deleteRemote⟩ ∉ (r.passPlan t).plan.actions) ∧
        ∀ reaches, events.aside.stat = file.stat → 2 < reaches → ∀ r : Round,
          r.LeavesAlone (w.evict manifest record pendingUploads events reaches) record.path
              record.contentHash →
            (⟨record.path, .deleteRemote⟩ ∈
                (r.passPlan (w.evict manifest record pendingUploads events reaches)).plan.actions ↔
              excluded r.options.ignored (stubRel record.path) = true ∨
                maxStubLen < (evictStub record entry file events).textLen)) := by
  obtain ⟨entry, target, file, hagrees, heffects⟩ := evictOne_begins hbegins
  refine ⟨entry, target, file, hagrees, fun hname => ?_⟩
  have hrow : w.device.Agreed record.path record.contentHash record :=
    ⟨hrecord, hagrees.synced, rfl⟩
  have htarget : target = record.path := by
    have hnamed := hagrees.named
    rw [hname.canonical, Option.some.injEq] at hnamed
    exact hnamed.symm
  subst htarget
  have hstart : w.Recoverable record.path record.contentHash :=
    ⟨record, hrow, .inl ⟨file, hagrees.found, hagrees.settled, hagrees.contents⟩⟩
  constructor
  · intro reaches steps t hruns
    have hrecoverable : t.Recoverable record.path record.contentHash :=
      hruns.invariant (I := fun u => u.Recoverable record.path record.contentHash) hstart
        fun u step v hu hguard hstep => hu.later hname hguard hstep
    exact ⟨hrecoverable, fun r hspares hfinds => hrecoverable.not_deleted hname hspares hfinds⟩
  · intro reaches hstat hreaches r hspares
    exact evicted_deleted_iff hname hrow rfl heffects hstat hreaches hspares

theorem readingAgain_leavesAlone {r : Round} {w : World} (version : DeltaEntry)
    (hmanifest : r.merged.manifest = StringMap.single version.path version)
    (hlive : version.deleted = false) (hseen : excluded r.options.ignored version.path = false)
    (hrow : w.device.files[stubRel version.path]? = none) (hconflicts : r.conflicts = [])
    (huploads : r.events.uploads = []) (hplain : '(' ∉ version.path.toList) :
    r.LeavesAlone w version.path version.plaintextHash := by
  have hentry : ∀ q e, r.merged.manifest[q]? = some e → q = version.path ∧ e = version := by
    intro q e he
    rw [hmanifest, StringMap.single, StringMap.getElem?_insert] at he
    split_ifs at he with hq
    · cases he
      exact ⟨hq.symm, rfl⟩
    · cases he
  have hself : r.merged.manifest[version.path]? = some version := by
    rw [hmanifest, StringMap.single, StringMap.getElem?_insert, if_pos rfl]
  have hplainStub : '(' ∉ (stubRel version.path).toList := by
    rw [stubRel, String.toList_ofList, List.mem_append, not_or]
    exact ⟨hplain, by decide +kernel⟩
  constructor
  · rw [Manifest.liveHash, hself, Option.bind_some, hlive]
    rfl
  · exact hseen
  · exact hrow
  · rw [Option.eq_none_iff_forall_ne_some]
    intro e he
    exact stubRel_ne _ (hentry _ _ he).1
  · intro e he
    rw [(hentry _ _ he).2]
  · intro q e he hne
    exact absurd (hentry _ _ he).1 hne
  · rw [hconflicts]
    exact List.forall_mem_nil _
  · exact fun q => ⟨copyPath_names hplain, copyPath_names hplainStub⟩
  · rw [huploads]
    exact List.forall_mem_nil _

theorem readingAgain_merged (version : DeltaEntry) :
    (readingAgain version).merged.manifest = StringMap.single version.path version ∧
      (readingAgain version).conflicts = [] := ⟨rfl, rfl⟩

def syncedDevice : World where
  device := { deviceId := "laptop", deviceName := "pc"
              files := .single "a" (.synced "a" 1 10)
              uploads := ∅, lamport := 1, manifestGeneration := 0 }
  tree := .single "a" (realFile 10)
  log := ∅

def syncedManifest : Manifest := .single "a" (.sample "a" "laptop" 1 10 none)

/-- The object is there, and no one writes to the file. -/
def quietEviction : EvictEvents := ⟨some (some (ciphertextLen 1)), true, 0, none, realFile 10⟩

def fetchingBack : Round :=
  { readingAgain (.sample "a" "laptop" 1 10 none) with
    options := ⟨fun _ => false, ⟨[], [], false⟩, ["a"]⟩
    events := ⟨[], [(⟨"a", .hydrate⟩, .downloaded ⟨1, 2, 10⟩)], fun _ => 0, fun _ => "now"⟩
    reaches := 9 }

def stubbedDevice : World := syncedDevice.evict syncedManifest (.synced "a" 1 10) [] quietEviction 4

theorem mirrorable_a : Mirrorable "a" := ⟨by decide +kernel, by decide +kernel, by decide +kernel⟩

/-- Evicted, fetched back and read again. -/
theorem eviction_recoverable_fetched :
    (stubbedDevice.passFetching fetchingBack [⟨⟨"a", .hydrate⟩, 2, true⟩]).Recoverable "a" 10 ∧
      ⟨"a", .deleteRemote⟩ ∉ ((readingAgain (.sample "a" "laptop" 1 10 none)).passPlan
        (stubbedDevice.passFetching fetchingBack [⟨⟨"a", .hydrate⟩, 2, true⟩])).plan.actions := by
  have hrecord : syncedDevice.device.files[(FileRecord.synced "a" 1 10).path]? =
      some (.synced "a" 1 10) := by decide +kernel
  obtain ⟨entry, target, file, -, hsafe⟩ := eviction_recoverable hrecord
    (show (evictOne syncedDevice.tree syncedManifest (some (.synced "a" 1 10)) []
      quietEviction).1 ≠ [] by decide +kernel)
  have hevict : Undisturbed "a" 10 syncedDevice
      (.evict syncedManifest (.synced "a" 1 10) [] quietEviction 4) := by
    refine ⟨hrecord, fun _ => ⟨rfl, rfl⟩, fun _ entry file hentry hfile => ?_,
      fun hne => absurd rfl hne⟩
    have hlisted : syncedManifest["a"]? = some (.sample "a" "laptop" 1 10 none) := by decide +kernel
    have hfound : syncedDevice.tree["a"]? = some (realFile 10) := by decide +kernel
    rw [hlisted] at hentry
    rw [hfound] at hfile
    cases hentry
    cases hfile
    decide +kernel
  have hpass : Undisturbed "a" 10 stubbedDevice
      (.pass fetchingBack [⟨⟨"a", .hydrate⟩, 2, true⟩]) := by
    refine ⟨readingAgain_leavesAlone (.sample "a" "laptop" 1 10 none) rfl rfl (by decide +kernel)
      (by decide +kernel) rfl rfl (by decide +kernel), by decide +kernel, by decide +kernel,
      by decide +kernel, ?_⟩
    intro action d hmem
    obtain ⟨rfl, hd⟩ := Prod.mk.inj (List.mem_singleton.mp hmem)
    cases hd
    exact ⟨_, List.mem_singleton_self _, .sample "a" "laptop" 1 10 none, rfl, rfl, fun _ => rfl,
      by decide +kernel, rfl⟩
  have hend := (hsafe mirrorable_a).1 4 [.pass fetchingBack [⟨⟨"a", .hydrate⟩, 2, true⟩]] _
    (.next hevict rfl (.next hpass rfl (.refl _)))
  exact ⟨hend.1, hend.2 _ (readingAgain_leavesAlone (.sample "a" "laptop" 1 10 none) rfl rfl
    (by decide +kernel) (by decide +kernel) rfl rfl (by decide +kernel)) (by decide +kernel)⟩

def longParts : List (List Char) := List.replicate 16 (List.replicate 249 'a')

/-- Folders and a file in them, with names near the longest that a file system takes. -/
def longPath : String := String.ofList (slashed longParts)

theorem longParts_letters {part : List Char} (h : part ∈ longParts) :
    (∀ c ∈ part, c = 'a') ∧ part.length = 249 := by
  rw [List.eq_of_mem_replicate h]
  exact ⟨fun c hc => List.eq_of_mem_replicate hc, List.length_replicate⟩

theorem longParts_mem : List.replicate 249 'a' ∈ longParts :=
  List.mem_replicate.mpr ⟨by omega, rfl⟩

theorem longParts_ne_nil : longParts ≠ [] := List.ne_nil_of_mem longParts_mem

theorem longPath_mem {c : Char} (hc : c ≠ '/') : c ∈ longPath.toList ↔ c = 'a' := by
  rw [longPath, String.toList_ofList, mem_slashed hc]
  constructor
  · rintro ⟨part, hpart, hmem⟩
    exact (longParts_letters hpart).1 c hmem
  · rintro rfl
    exact ⟨_, longParts_mem, List.mem_replicate.mpr ⟨by omega, rfl⟩⟩

theorem longPath_mirrorable : Mirrorable longPath := by
  refine ⟨safeJoin_slashed longParts_ne_nil fun part hpart => ?_, ?_, ?_⟩
  · obtain ⟨hletters, hlength⟩ := longParts_letters hpart
    refine ⟨fun h => ?_, ?_, ?_, ?_⟩
    · cases hletters _ h
    · rintro rfl
      cases hlength
    · rintro rfl
      cases hlength
    · rintro rfl
      cases hlength
  · rw [Option.eq_none_iff_forall_ne_some]
    intro original h
    have hm : 'm' ∈ longPath.toList := by
      rw [stripStubSuffix_eq_some.mp h, stubRel, String.toList_ofList]
      exact List.mem_append_right _ (by decide +kernel)
    rw [longPath_mem (by decide)] at hm
    cases hm
  · intro h
    have ha : 'a' ∈ longPath.toList := (longPath_mem (by decide)).mpr rfl
    rw [h] at ha
    cases ha

theorem longPath_seen : excluded (fun _ => false) longPath = false := by
  have hsplit : (slashed longParts).splitOn '/' = longParts := by
    refine List.splitOn_intercalate _ (fun part hpart h => ?_) longParts_ne_nil
    cases (longParts_letters hpart).1 _ h
  unfold excluded
  rw [longPath, String.toList_ofList, hsplit, Bool.or_false, List.any_eq_false]
  intro part hpart
  rw [decide_eq_true_eq]
  have hlengths : ∀ name ∈ alwaysExclude, name.toList.length ≠ 249 := by decide +kernel
  intro h
  refine hlengths _ h ?_
  rw [String.toList_ofList, (longParts_letters hpart).2]

theorem length_longPath : longPath.toList.length = 3999 := by
  rw [longPath, String.toList_ofList]
  decide +kernel

theorem long_text {stub : StubMeta} (hpath : stub.path = longPath)
    (hhash : stub.hash = hashText 10) : maxStubLen < stub.textLen := by
  have htext := stub.le_textLen
  have hdigits : jsonStringLen (hashText 10) = 66 := by decide +kernel
  have hlong := jsonStringLen_le longPath
  rw [hpath, hhash, hdigits] at htext
  rw [length_longPath] at hlong
  unfold maxStubLen
  omega

def longVersion : DeltaEntry :=
  { DeltaEntry.sample longPath "laptop" 1 10 none with objectKey := "data/k" }

def longDevice : World where
  device := { deviceId := "laptop", deviceName := "pc"
              files := .single longPath (.synced longPath 1 10)
              uploads := ∅, lamport := 1, manifestGeneration := 0 }
  tree := .single longPath (realFile 10)
  log := ∅

theorem longDevice_agrees : EvictionAgrees longDevice.tree (.single longPath longVersion)
    (.synced longPath 1 10) [] quietEviction longVersion longPath (realFile 10) :=
  ⟨rfl, rfl, List.not_mem_nil, single_self .., rfl, rfl, longPath_mirrorable.canonical,
    single_self .., rfl, rfl, rfl⟩

theorem longVersion_leavesAlone {w : World} (hrow : w.device.files[stubRel longPath]? = none) :
    (readingAgain longVersion).LeavesAlone w longPath 10 := by
  obtain ⟨hmanifest, hconflicts⟩ := readingAgain_merged longVersion
  refine readingAgain_leavesAlone longVersion hmanifest rfl longPath_seen hrow hconflicts rfl ?_
  exact fun h => absurd ((longPath_mem (by decide)).mp h) (by decide)

/-- The placeholder of a long path is written and never read back: what was evicted is deleted for
everyone. -/
theorem evicted_deleted_long :
    EvictionAgrees longDevice.tree (.single longPath longVersion) (.synced longPath 1 10) []
        quietEviction longVersion longPath (realFile 10) ∧
      (readingAgain longVersion).LeavesAlone (longDevice.evict (.single longPath longVersion)
        (.synced longPath 1 10) [] quietEviction 4) longPath 10 ∧
      ⟨longPath, .deleteRemote⟩ ∈ ((readingAgain longVersion).passPlan (longDevice.evict
        (.single longPath longVersion) (.synced longPath 1 10) [] quietEviction 4)).plan.actions := by
  have heffects := evictOne_agrees longDevice_agrees rfl
  have hrow : longDevice.device.Agreed longPath 10 (.synced longPath 1 10) :=
    ⟨single_self .., rfl, rfl⟩
  have hspares : (readingAgain longVersion).LeavesAlone (longDevice.evict
      (.single longPath longVersion) (.synced longPath 1 10) [] quietEviction 4) longPath 10 := by
    apply longVersion_leavesAlone
    have hnone : longDevice.device.files[stubRel longPath]? = none :=
      single_other _ (stubRel_ne longPath).symm
    exact evict_absent rfl heffects rfl (by decide) (stubRel_ne longPath).symm hnone
  exact ⟨longDevice_agrees, hspares, (evicted_deleted_iff longPath_mirrorable hrow rfl heffects rfl
    (by decide) hspares).mpr (.inr (long_text rfl rfl))⟩

end FileMirror
