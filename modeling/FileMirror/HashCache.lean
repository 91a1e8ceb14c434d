import FileMirror.DeviceRuns
import FileMirror.Transitions

set_option autoImplicit false

namespace FileMirror

open Transitions

inductive StateOp where
  | confirmSync (now : ℤ) (path : String) (size : ℕ) (mtimeNs : ℤ) (hash : ContentHash)
  | confirmPlaceholder (now : ℤ) (path : String) (size : ℕ) (hash : ContentHash)
  | markEvicted (path : String)
  | markLocal (path : String)
  | recordHydrated (now : ℤ) (path : String)
  | recordScan (entries : List LocalEntry)
  | remove (path : String)
  | clearUpload (path : String)
  | recordLamport (clock : ℕ)

def DeviceState.perform (s : DeviceState) : StateOp → DeviceState
  | .confirmSync now path size mtimeNs hash => s.confirmSync now path size mtimeNs hash
  | .confirmPlaceholder now path size hash => s.confirmPlaceholder now path size hash
  | .markEvicted path => s.markEvicted path
  | .markLocal path => s.markLocal path
  | .recordHydrated now path => s.recordHydrated now path
  | .recordScan entries => s.recordScan entries
  | .remove path => s.remove path
  | .clearUpload path => s.clearUpload path
  | .recordLamport clock => s.recordLamport clock

/-- What a transfer reads of the local file: the file that `hash_stable` hashes for an upload, or
the one that `file_stat` finds at the path once a verified download was renamed to it. -/
inductive TransferRead where
  | upload (path : String) (file : DiskFile)
  | download (path : String) (verified : ContentHash) (found : DiskFile)

/-- What the transfer hands to `confirm_sync`. -/
def TransferRead.result : TransferRead → Option LocalEntry
  | .upload path file => file.hashStable.map fun read => ⟨path, read.1, read.2.1, read.2.2⟩
  | .download path verified found => some ⟨path, found.stat.size, found.stat.mtimeNs, verified⟩

/-- The file that was hashed or verified. What a download finds has its own stat, and is the
verified file only where nothing else was written to the path since the rename. -/
def TransferRead.sighting : TransferRead → Option LocalEntry
  | .upload path file => file.hashStable.map fun read => ⟨path, read.1, read.2.1, read.2.2⟩
  | .download path verified found =>
      if found.contents = verified then
        some ⟨path, found.stat.size, found.stat.mtimeNs, verified⟩
      else none

/-- `seen` lists the files that were hashed or verified, `transferred` the results of transfers,
confirmed or still to be, and `reported` what scans have reported. -/
structure Sightings where
  device : DeviceState
  seen : List LocalEntry
  transferred : List LocalEntry
  reported : List LocalEntry

inductive SightingLabel where
  | op (op : StateOp)
  | scan (ignored : String → Bool) (tree : LocalTree)
  | transfer (transfer : TransferRead)

def hashedEntry (cache : Baseline) (file : String × DiskFile) : Option LocalEntry :=
  if (cache.cached file.1 file.2.stat.size file.2.stat.mtimeNs).isSome then none
  else file.2.hashStable.map fun found => ⟨file.1, found.1, found.2.1, found.2.2⟩

namespace Sightings

/-- Only results of transfers are confirmed, only scanned entries are recorded, and the length of a
file is a signed 64-bit number. -/
def step (s : Sightings) : SightingLabel → Option Sightings
  | .scan ignored tree =>
      if (walk ignored tree).all fun file => file.2.stat.size ≤ i64Max then
        some { s with
          seen := s.seen ++ (walk ignored tree).filterMap (hashedEntry s.device.files)
          reported := s.reported ++ (scanAllWith ignored s.device.files tree).entries }
      else none
  | .transfer transfer =>
      if transfer.result.all fun entry => entry.size ≤ i64Max then
        some { s with
          seen := s.seen ++ transfer.sighting.toList
          transferred := s.transferred ++ transfer.result.toList }
      else none
  | .op (.confirmSync now path size mtimeNs hash) =>
      if ⟨path, size, mtimeNs, hash⟩ ∈ s.transferred then
        some { s with device := s.device.confirmSync now path size mtimeNs hash }
      else none
  | .op (.recordScan entries) =>
      if entries.all fun entry => entry ∈ s.reported then
        some { s with device := s.device.recordScan entries }
      else none
  | .op op => some { s with device := s.device.perform op }

/-- Whatever the cache answers was seen, and so was whatever a transfer or a scan has reported. -/
structure Truthful (s : Sightings) : Prop where
  cached : ∀ path size mtimeNs hash, s.device.files.cached path size mtimeNs = some hash →
    ⟨path, size, mtimeNs, hash⟩ ∈ s.seen
  transferred : ∀ entry ∈ s.transferred, entry ∈ s.seen ∧ entry.size ≤ i64Max
  reported : ∀ entry ∈ s.reported, entry ∈ s.seen ∧ entry.size ≤ i64Max

end Sightings

/-- A placeholder is confirmed for a version that was seen here, as a file with the mtime that its
row keeps; and between the rename of a download and its stat the file at the path stays what it
is, unless the version was seen with the stat that is found. -/
def Vouched (s : Sightings) : SightingLabel → Prop
  | .transfer (.download path verified found) =>
      found.contents = verified ∨ ⟨path, found.stat.size, found.stat.mtimeNs, verified⟩ ∈ s.seen
  | .op (.confirmPlaceholder _ path size hash) =>
      ⟨path, min size i64Max, s.device.files[path]?.elim 0 FileRecord.mtimeNs, hash⟩ ∈ s.seen
  | _ => True

section Rows

variable {b : Baseline} {path : String} {seen : List LocalEntry} {record : FileRecord}

def Baseline.Seen (b : Baseline) (seen : List LocalEntry) : Prop :=
  ∀ path record, b[path]? = some record →
    ⟨path, record.size, record.mtimeNs, record.contentHash⟩ ∈ seen

theorem cached_seen_iff : (∀ path size mtimeNs hash, b.cached path size mtimeNs = some hash →
    (⟨path, size, mtimeNs, hash⟩ : LocalEntry) ∈ seen) ↔ b.Seen seen := by
  constructor
  · intro h path record hrow
    apply h
    simp only [Baseline.cached, hrow, and_self, if_true]
  · intro h path size mtimeNs hash hcached
    unfold Baseline.cached at hcached
    cases hrow : b[path]? with
    | none =>
        rw [hrow] at hcached
        cases hcached
    | some record =>
        rw [hrow] at hcached
        simp only at hcached
        split_ifs at hcached with hstat
        obtain ⟨rfl, rfl⟩ := hstat
        cases hcached
        exact h path record hrow

theorem Baseline.Seen.mono {more : List LocalEntry} (h : b.Seen seen) (hsub : seen ⊆ more) :
    b.Seen more := fun path record hrow => hsub (h path record hrow)

theorem seen_insert (h : b.Seen seen) : Baseline.Seen (b.insert path record) seen ↔
    ⟨path, record.size, record.mtimeNs, record.contentHash⟩ ∈ seen := by
  constructor
  · intro hinsert
    apply hinsert path record
    rw [StringMap.getElem?_insert, if_pos rfl]
  · intro hmem p row hrow
    rw [StringMap.getElem?_insert] at hrow
    split_ifs at hrow with hp
    · cases hrow
      exact hp ▸ hmem
    · exact h p row hrow

theorem Baseline.Seen.erase (h : b.Seen seen) : Baseline.Seen (b.erase path) seen := by
  intro p row hrow
  rw [StringMap.getElem?_erase] at hrow
  split_ifs at hrow
  exact h p row hrow

theorem Baseline.Seen.updateRow {s : DeviceState} {f : FileRecord → FileRecord}
    (h : s.files.Seen seen) (hsize : ∀ record, (f record).size = record.size)
    (hmtime : ∀ record, (f record).mtimeNs = record.mtimeNs)
    (hhash : ∀ record, (f record).contentHash = record.contentHash) :
    (s.updateRow path f).files.Seen seen := by
  unfold DeviceState.updateRow
  cases hrow : s.files[path]? with
  | none => exact h
  | some record =>
      refine (seen_insert h).mpr ?_
      rw [hsize, hmtime, hhash]
      exact h path record hrow

theorem Baseline.Seen.recordScan {s : DeviceState} {entries : List LocalEntry}
    (h : s.files.Seen seen) (hentries : ∀ entry ∈ entries, entry ∈ seen ∧ entry.size ≤ i64Max) :
    (s.recordScan entries).files.Seen seen := by
  induction entries generalizing s with
  | nil => exact h
  | cons entry entries ih =>
      obtain ⟨hmem, hsize⟩ := hentries entry (List.mem_cons_self ..)
      refine ih (s := s.recordScanEntry entry) ?_ fun e he =>
        hentries e (List.mem_cons_of_mem _ he)
      refine (seen_insert h).mpr ?_
      simp only [Nat.min_eq_left hsize]
      exact hmem

end Rows

section Steps

variable {s t : Sightings} {ignored : String → Bool} {tree : LocalTree}

theorem scan_reports {cache : Baseline} {entry : LocalEntry}
    (hentry : entry ∈ (scanAllWith ignored cache tree).entries) :
    ∃ file ∈ walk ignored tree, entry.size = file.2.stat.size ∧
      (cache.cached entry.path entry.size entry.mtimeNs = some entry.hash ∨
        hashedEntry cache file = some entry) := by
  obtain ⟨⟨rel, file⟩, hwalk, hfound⟩ := mem_scan_entries.mp hentry
  refine ⟨_, hwalk, ?_⟩
  unfold scanFile at hfound
  cases hstrip : stripStubSuffix rel with
  | some original =>
      rw [hstrip] at hfound
      cases hstub : file.stub with
      | none => simp [hstub] at hfound
      | some stub =>
          simp only [hstub] at hfound
          split_ifs at hfound
  | none =>
      rw [hstrip] at hfound
      simp only at hfound
      cases hcached : cache.cached rel file.stat.size file.stat.mtimeNs with
      | some hash =>
          rw [hcached] at hfound
          cases hfound
          exact ⟨rfl, .inl hcached⟩
      | none =>
          rw [hcached] at hfound
          simp only at hfound
          cases hsettled : file.settled with
          | false => simp [DiskFile.hashStable, hsettled] at hfound
          | true =>
              simp only [DiskFile.hashStable, hsettled, if_true] at hfound
              cases hfound
              exact ⟨rfl, .inr (by simp [hashedEntry, hcached, DiskFile.hashStable, hsettled])⟩

theorem Sightings.Truthful.seen (h : s.Truthful) : s.device.files.Seen s.seen :=
  cached_seen_iff.mp h.cached

theorem result_seen_iff {transfer : TransferRead} :
    (∀ entry ∈ transfer.result, entry ∈ s.seen ++ transfer.sighting.toList) ↔
      Vouched s (.transfer transfer) := by
  cases transfer with
  | upload path file =>
      exact iff_of_true (fun entry hentry => List.mem_append_right _ (Option.mem_toList.mpr hentry))
        trivial
  | download path verified found =>
      simp only [TransferRead.result, Option.mem_some_iff, forall_eq', List.mem_append,
        Option.mem_toList, TransferRead.sighting, Vouched]
      by_cases hsame : found.contents = verified
      · simp [hsame]
      · simp [hsame]

theorem truthful_step_iff (hs : s.Truthful) {label : SightingLabel} (hstep : s.step label = some t) :
    t.Truthful ↔ Vouched s label := by
  have hrows := hs.seen
  have hkept : ∀ device : DeviceState, device.files.Seen s.seen →
      Sightings.Truthful { s with device } := fun device h =>
    ⟨cached_seen_iff.mpr h, hs.transferred, hs.reported⟩
  cases label with
  | scan ignored tree =>
      simp only [Sightings.step] at hstep
      split_ifs at hstep with hsizes
      cases hstep
      refine iff_of_true ⟨cached_seen_iff.mpr (hrows.mono (List.subset_append_left ..)),
        fun entry hentry => (hs.transferred entry hentry).imp_left (List.mem_append_left _), ?_⟩
        trivial
      intro entry hentry
      rcases List.mem_append.mp hentry with hold | hnew
      · obtain ⟨hmem, hsize⟩ := hs.reported entry hold
        exact ⟨List.mem_append_left _ hmem, hsize⟩
      · obtain ⟨file, hwalk, hsize, hcached | hhashed⟩ := scan_reports hnew
        · refine ⟨List.mem_append_left _ (hs.cached _ _ _ _ hcached), ?_⟩
          rw [hsize]
          simpa using List.all_eq_true.mp hsizes file hwalk
        · refine ⟨List.mem_append_right _ (List.mem_filterMap.mpr ⟨file, hwalk, hhashed⟩), ?_⟩
          rw [hsize]
          simpa using List.all_eq_true.mp hsizes file hwalk
  | transfer transfer =>
      simp only [Sightings.step] at hstep
      split_ifs at hstep with hsizes
      cases hstep
      rw [← result_seen_iff]
      constructor
      · intro ht entry hentry
        exact (ht.transferred entry
          (List.mem_append_right _ (Option.mem_toList.mpr hentry))).1
      · intro hseen
        refine ⟨cached_seen_iff.mpr (hrows.mono (List.subset_append_left ..)), ?_,
          fun entry hentry => (hs.reported entry hentry).imp_left (List.mem_append_left _)⟩
        intro entry hentry
        rcases List.mem_append.mp hentry with hold | hnew
        · exact (hs.transferred entry hold).imp_left (List.mem_append_left _)
        · have hresult : transfer.result = some entry := Option.mem_toList.mp hnew
          refine ⟨hseen entry hresult, ?_⟩
          simpa [hresult] using hsizes
  | op op =>
      cases op with
      | confirmSync now path size mtimeNs hash =>
          simp only [Sightings.step] at hstep
          split_ifs at hstep with hresult
          cases hstep
          obtain ⟨hmem, hsize⟩ := hs.transferred _ hresult
          refine iff_of_true (hkept _ ((seen_insert hrows).mpr ?_)) trivial
          simp only [Nat.min_eq_left hsize]
          exact hmem
      | confirmPlaceholder now path size hash =>
          cases hstep
          constructor
          · intro ht
            exact (seen_insert hrows).mp (cached_seen_iff.mp ht.cached)
          · intro hvouched
            exact hkept _ ((seen_insert hrows).mpr hvouched)
      | recordScan entries =>
          simp only [Sightings.step] at hstep
          split_ifs at hstep with hentries
          cases hstep
          refine iff_of_true (hkept _ (hrows.recordScan fun entry hentry => ?_)) trivial
          exact hs.reported entry (by simpa using List.all_eq_true.mp hentries entry hentry)
      | markEvicted path =>
          cases hstep
          exact iff_of_true (hkept _ (hrows.updateRow (fun _ => rfl) (fun _ => rfl) fun _ => rfl))
            trivial
      | markLocal path =>
          cases hstep
          exact iff_of_true (hkept _ (hrows.updateRow (fun _ => rfl) (fun _ => rfl) fun _ => rfl))
            trivial
      | recordHydrated now path =>
          cases hstep
          exact iff_of_true (hkept _ (hrows.updateRow (fun _ => rfl) (fun _ => rfl) fun _ => rfl))
            trivial
      | remove path =>
          cases hstep
          exact iff_of_true (hkept _ hrows.erase) trivial
      | clearUpload path =>
          cases hstep
          exact iff_of_true (hkept _ hrows) trivial
      | recordLamport clock =>
          cases hstep
          exact iff_of_true (hkept _ hrows) trivial

theorem vouched_of_unchanged (hs : s.Truthful) {path : String} {record : FileRecord}
    (hrow : s.device.files[path]? = some record) (hsize : record.size ≤ i64Max) (now : ℤ) :
    Vouched s (.op (.confirmPlaceholder now path record.size record.contentHash)) := by
  simp only [Vouched, Nat.min_eq_left hsize, hrow]
  exact hs.seen path record hrow

end Steps

def Effect.stateOp (now : String → ℕ) : Effect → Option StateOp
  | .confirmSync path size mtimeNs hash => some (.confirmSync (now path) path size mtimeNs hash)
  | .recordHydrated path => some (.recordHydrated (now path) path)
  | .confirmPlaceholder path size hash => some (.confirmPlaceholder (now path) path size hash)
  | .removeRow path => some (.remove path)
  | .clearUpload path => some (.clearUpload path)
  | .recordLamport clock => some (.recordLamport clock)
  | .logDelta .. | .writePlaceholder .. | .deleteLocal .. | .setAside .. => none

def Effect.Transferred (results : List LocalEntry) : Effect → Prop
  | .confirmSync path size mtimeNs hash => ⟨path, size, mtimeNs, hash⟩ ∈ results
  | _ => True

section Passes

variable {w : World} {s : Sightings}

theorem preserveLoop_sightings (baseline : Baseline) {conflicts : List (RemoteConflict × String)}
    {p : Preserving} (hs : s.device = p.state) : ∃ labels t,
    Runs Sightings.step Unguarded s labels t ∧ t.reported = s.reported ∧
      t.device = (preserveLoop baseline conflicts p).1.state := by
  induction conflicts generalizing p s with
  | nil => exact ⟨[], s, .refl s, rfl, hs⟩
  | cons c conflicts ih =>
      rw [preserveLoop]
      cases hone : preserveOne c.2 baseline p c.1 with
      | none => exact ⟨[], s, .refl s, rfl, hs⟩
      | some p' =>
          obtain ⟨rfl, -⟩ | ⟨-, rfl⟩ | ⟨source, target, -, rfl⟩ := preserveOne_cases hone
          · exact ih hs
          · exact ih hs
          · have hremoved : Sightings.device { s with device := s.device.remove c.1.loser.path } =
                Preserving.state ⟨p.tree.rename source target, p.state.remove c.1.loser.path,
                  { p.preserved with renamed := p.preserved.renamed ++
                    [copyPath c.2 p.state.deviceName c.1.loser.path] }⟩ :=
              congrArg (·.remove c.1.loser.path) hs
            obtain ⟨labels, t, hruns, hreported, hdevice⟩ := ih hremoved
            exact ⟨.op (.remove c.1.loser.path) :: labels, t, .next trivial rfl hruns, hreported,
              hdevice⟩

theorem transfers_sightings {transfers : List TransferRead}
    (hsizes : ∀ entry ∈ transfers.filterMap TransferRead.result, entry.size ≤ i64Max) :
    ∃ t, Runs Sightings.step Unguarded s (transfers.map .transfer) t ∧ t.device = s.device ∧
      t.reported = s.reported ∧
      t.transferred = s.transferred ++ transfers.filterMap TransferRead.result := by
  induction transfers generalizing s with
  | nil => exact ⟨s, .refl s, rfl, rfl, (List.append_nil _).symm⟩
  | cons transfer transfers ih =>
      have hfits : (transfer.result.all fun entry => entry.size ≤ i64Max) = true := by
        cases hresult : transfer.result with
        | none => rfl
        | some entry =>
            exact decide_eq_true (hsizes entry
              (List.mem_filterMap.mpr ⟨transfer, List.mem_cons_self .., hresult⟩))
      obtain ⟨t, hruns, hdevice, hreported, htransferred⟩ := ih (s := { s with
        seen := s.seen ++ transfer.sighting.toList
        transferred := s.transferred ++ transfer.result.toList }) fun entry hentry => by
          obtain ⟨other, hother, hresult⟩ := List.mem_filterMap.mp hentry
          exact hsizes entry (List.mem_filterMap.mpr ⟨other, List.mem_cons_of_mem _ hother, hresult⟩)
      refine ⟨t, .next trivial (if_pos hfits) hruns, hdevice, hreported, htransferred.trans ?_⟩
      cases hresult : transfer.result with
      | none => simp [hresult]
      | some entry => simp [hresult]

theorem effects_sightings (now : String → ℕ) {es : List Effect} (hs : s.device = w.device)
    (hresults : ∀ e ∈ es, e.Transferred s.transferred) :
    ∃ labels t, Runs Sightings.step Unguarded s labels t ∧ t.reported = s.reported ∧
      t.device = (es.foldl (World.run now) w).device := by
  induction es generalizing w s with
  | nil => exact ⟨[], s, .refl s, rfl, hs⟩
  | cons e es ih =>
      have hone : ∃ labels u, Runs Sightings.step Unguarded s labels u ∧
          u.reported = s.reported ∧ u.transferred = s.transferred ∧
            u.device = (w.run now e).device := by
        cases hop : e.stateOp now with
        | none =>
            refine ⟨[], s, .refl s, rfl, rfl, hs.trans ?_⟩
            cases e <;> first | rfl | cases hop
        | some op =>
            have hstep : ∃ u, s.step (.op op) = some u ∧ u.reported = s.reported ∧
                u.transferred = s.transferred ∧ u.device = (w.run now e).device := by
              cases e with
              | confirmSync path size mtimeNs hash =>
                  cases hop
                  refine ⟨_, if_pos (hresults _ (List.mem_cons_self ..)), rfl, rfl, ?_⟩
                  simp only [World.run, hs]
              | recordHydrated path | confirmPlaceholder path size hash | removeRow path
              | clearUpload path | recordLamport clock =>
                  cases hop
                  refine ⟨_, rfl, rfl, rfl, ?_⟩
                  simp only [World.run, DeviceState.perform, hs]
              | _ => cases hop
            obtain ⟨u, hstep, hkept⟩ := hstep
            exact ⟨[.op op], u, .next trivial hstep (.refl u), hkept⟩
      obtain ⟨before, u, hfirst, hreported, htransferred, hdevice⟩ := hone
      have hrest : ∀ e ∈ es, e.Transferred u.transferred := fun f hf =>
        htransferred.symm ▸ hresults f (List.mem_cons_of_mem _ hf)
      obtain ⟨after, t, hlast, hkept, hend⟩ := ih hdevice hrest
      exact ⟨before ++ after, t, hfirst.append hlast, hkept.trans hreported, hend⟩

theorem pass_sightings {r : Round} {transfers : List TransferRead} (hs : s.device = w.device)
    (htree : ((walk r.options.ignored (r.preserved w).tree).all fun file =>
      file.2.stat.size ≤ i64Max) = true)
    (hsizes : ∀ entry ∈ transfers.filterMap TransferRead.result, entry.size ≤ i64Max)
    (hresults : ∀ e ∈ r.effects w, e.Transferred (transfers.filterMap TransferRead.result)) :
    ∃ labels t, Runs Sightings.step Unguarded s labels t ∧ t.device = (w.pass r).device := by
  have hstart : s.device = (⟨w.tree, w.device, ⟨[], []⟩⟩ : Preserving).state := hs
  obtain ⟨removed, t, hremoved, -, hpreserved⟩ := preserveLoop_sightings w.device.files hstart
  obtain ⟨v, hscan, hplanned, hentries⟩ : ∃ v,
      t.step (.scan r.options.ignored (r.preserved w).tree) = some v ∧
        v.device = (r.planned w).device ∧ (r.passPlan w).scan.entries ⊆ v.reported := by
    refine ⟨_, if_pos htree, hpreserved, ?_⟩
    rw [hpreserved]
    exact List.subset_append_right ..
  obtain ⟨read, hread, hsame, hkept, htransferred⟩ := transfers_sightings (s := v) hsizes
  have hconfirms : ∀ e ∈ (r.effects w).take r.reaches, e.Transferred read.transferred := by
    intro e he
    have hresult := hresults e (List.mem_of_mem_take he)
    cases e with
    | confirmSync path size mtimeNs hash => exact htransferred ▸ List.mem_append_right _ hresult
    | _ => trivial
  obtain ⟨performed, u, hperformed, hreported, hdevice⟩ :=
    effects_sightings r.events.unix (hsame.trans hplanned) hconfirms
  have hreached : Runs Sightings.step Unguarded s (removed ++
      .scan r.options.ignored (r.preserved w).tree :: (transfers.map .transfer ++ performed)) u :=
    hremoved.append (.next trivial hscan (hread.append hperformed))
  unfold World.pass
  split_ifs with hended hcompletes
  · have hrecorded : ((r.passPlan w).scan.entries.all fun entry => entry ∈ u.reported) = true := by
      simp only [List.all_eq_true, decide_eq_true_eq, hreported, hkept]
      exact hentries
    have hrecord : u.step (.op (.recordScan (r.passPlan w).scan.entries)) =
        some { u with device := u.device.recordScan (r.passPlan w).scan.entries } :=
      if_pos hrecorded
    refine ⟨_, _, hreached.append (.next trivial hrecord (.refl _)), ?_⟩
    simp only [hdevice]
  · exact ⟨_, u, hreached, hdevice⟩
  · exact ⟨removed, t, hremoved, hpreserved⟩

end Passes

/-- Where every confirmed placeholder and every download is vouched for, the cache answers only with
hashes of files that were seen at the path with that stat, and scans report no others; and the
first step that is not makes the cache, or what is to be confirmed, say something else. -/
theorem hash_cache_truthful {s t : Sightings} {labels : List SightingLabel} (hs : s.Truthful)
    (hruns : Runs Sightings.step Vouched s labels t) :
    t.Truthful ∧ ∀ label u, t.step label = some u → (u.Truthful ↔ Vouched t label) := by
  have ht : t.Truthful := hruns.invariant hs fun u label v hu hvouched hstep =>
    (truthful_step_iff hu hstep).mpr hvouched
  exact ⟨ht, fun label u hstep => truthful_step_iff ht hstep⟩

def freshSighting : Sightings := ⟨⟨"laptop", "pc", ∅, ∅, 1, 0⟩, [], [], []⟩

/-- "b" is uploaded, "a" is downloaded and then evicted. -/
def evictedSighting : Sightings where
  device := ((freshSighting.device.confirmSync 0 "b" 2 4 20).confirmSync 0 "a" 1 5 10).markEvicted "a"
  seen := [⟨"b", 2, 4, 20⟩, ⟨"a", 1, 5, 10⟩]
  transferred := [⟨"b", 2, 4, 20⟩, ⟨"a", 1, 5, 10⟩]
  reported := []

theorem hash_cache_truthful_refreshed : Sightings.Truthful
    { evictedSighting with device := evictedSighting.device.confirmPlaceholder 1 "a" 1 10 } := by
  have hfresh : freshSighting.Truthful := by
    refine ⟨cached_seen_iff.mpr fun path record hrow => ?_, List.forall_mem_nil _,
      List.forall_mem_nil _⟩
    have hnone : freshSighting.device.files[path]? = none := rfl
    cases hnone.symm.trans hrow
  have hruns : Runs Sightings.step Vouched freshSighting
      [.transfer (.upload "b" ⟨⟨2, 4⟩, 20, true, none⟩),
        .transfer (.download "a" 10 ⟨⟨1, 5⟩, 10, true, none⟩), .op (.confirmSync 0 "b" 2 4 20),
        .op (.confirmSync 0 "a" 1 5 10), .op (.markEvicted "a"), .op (.confirmPlaceholder 1 "a" 1 10)]
      { evictedSighting with device := evictedSighting.device.confirmPlaceholder 1 "a" 1 10 } := by
    refine .next trivial rfl (.next (.inl rfl) rfl (.next trivial rfl (.next trivial rfl
      (.next trivial rfl (.next ?_ rfl (.refl _))))))
    unfold Vouched
    decide +kernel
  exact (hash_cache_truthful hfresh hruns).1

/-- The placeholder of an evicted file follows a remote edit of the same length, and the old file,
put back with its time, is then taken for the new version. Or a download of version 11 is written
over before its stat, and the user's file is taken for that version. -/
theorem hash_cache_deceived :
    (∃ t u, evictedSighting.step (.op (.confirmPlaceholder 1 "a" 1 11)) = some t ∧
      t.device.files.cached "a" 1 5 = some 11 ∧ (⟨"a", 1, 5, 11⟩ : LocalEntry) ∉ t.seen ∧
      t.step (.scan (fun _ => false) (.single "a" ⟨⟨1, 5⟩, 10, true, none⟩)) = some u ∧
      u.reported = [⟨"a", 1, 5, 11⟩]) ∧
    ∃ t u v, freshSighting.step (.transfer (.download "a" 11 ⟨⟨1, 5⟩, 10, true, none⟩)) = some t ∧
      t.step (.op (.confirmSync 1 "a" 1 5 11)) = some u ∧
      u.device.files.cached "a" 1 5 = some 11 ∧ (⟨"a", 1, 5, 11⟩ : LocalEntry) ∉ u.seen ∧
      u.step (.scan (fun _ => false) (.single "a" ⟨⟨1, 5⟩, 10, true, none⟩)) = some v ∧
      v.reported = [⟨"a", 1, 5, 11⟩] := by
  refine ⟨⟨_, _, rfl, by decide +kernel, by decide, rfl, by decide +kernel⟩,
    _, _, _, rfl, rfl, by decide +kernel, by decide, rfl, by decide +kernel⟩

end FileMirror
