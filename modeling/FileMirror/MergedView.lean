import FileMirror.Compaction

set_option autoImplicit false

namespace FileMirror

def decodeAll : List (String × DeltaObject) → Option (List DeltaEntry)
  | [] => some []
  | (_, object) :: rest => do
      let deltas ← object.payload
      let more ← decodeAll rest
      return deltas ++ more

namespace Bucket

def logDeltas (b : Bucket) : Option (List DeltaEntry) := decodeAll b.log.toList

def openBase (recorded : ℕ) (b : Bucket) : Option Manifest :=
  match b.newest with
  | none => some ∅
  | some generation => (openNewest recorded b generation).map Prod.fst

/-- `from_store`, `read_deltas` and `merge_deltas` with nothing in between. -/
def readView (recorded : ℕ) (b : Bucket) : Option (Manifest × ℕ) := do
  let manifest ← b.openBase recorded
  let deltas ← b.logDeltas
  let merged := mergeDeltas manifest deltas
  return (merged.manifest, merged.remoteLamport)

def NewestLE (b b' : Bucket) : Prop :=
  ∀ g, b.newest = some g → ∃ g', b'.newest = some g' ∧ g ≤ g'

def NewestLT (b b' : Bucket) : Prop :=
  ∃ g', b'.newest = some g' ∧ ∀ g, b.newest = some g → g < g'

def InLog (b : Bucket) (delta : DeltaEntry) : Prop :=
  ∃ (key : String) (object : DeltaObject) (deltas : List DeltaEntry),
    b.log[key]? = some object ∧ object.payload = some deltas ∧ delta ∈ deltas

def LogReads (b : Bucket) : Prop :=
  ∀ (key : String) (object : DeltaObject), b.log[key]? = some object → object.payload ≠ none

def Base (b : Bucket) (m : Manifest) : Prop :=
  (b.newest = none ∧ m = ∅) ∨
    ∃ (g : ℕ) (object : SnapshotObject), b.newest = some g ∧ b.snapshots[g]? = some object ∧
      object.open? g = some m

end Bucket

theorem recordGeneration_le (generation : ℕ) : recordGeneration generation ≤ generation :=
  min_le_left ..

theorem openNewest_eq_some {recorded g recorded' : ℕ} {b : Bucket} {m : Manifest} :
    openNewest recorded b g = some (m, recorded') ↔
      recorded ≤ g ∧ recorded' = (if recorded < g then recordGeneration g else recorded) ∧
        ∃ object, b.snapshots[g]? = some object ∧ object.open? g = some m := by
  unfold openNewest
  cases hobject : b.snapshots[g]? with
  | none => simp
  | some object =>
      by_cases hold : g < recorded
      · have : ¬ recorded ≤ g := not_le.mpr hold
        simp [hold, this]
      · have hle : recorded ≤ g := not_lt.mp hold
        cases hopen : object.open? g with
        | none => simp [hold, hopen]
        | some manifest => simp [hold, hle, hopen, and_comm, eq_comm]

theorem openNewest_recorded_le {recorded g recorded' : ℕ} {b : Bucket} {m : Manifest}
    (h : openNewest recorded b g = some (m, recorded')) : recorded' ≤ g := by
  obtain ⟨hle, rfl, -⟩ := openNewest_eq_some.mp h
  have := recordGeneration_le g
  split_ifs <;> omega

theorem SnapshotObject.keysMatch_of_open {object : SnapshotObject} {g : ℕ} {m : Manifest}
    (h : object.open? g = some m) : m.KeysMatch := by
  rw [SnapshotObject.open?] at h
  split_ifs at h
  obtain ⟨entries, -, rfl⟩ := Option.map_eq_some_iff.mp h
  exact .ofEntries entries

namespace Bucket

variable {b b' : Bucket} {m : Manifest} {g recorded : ℕ}

theorem newest_eq_maxKey? (b : Bucket) : b.newest = b.snapshots.maxKey? :=
  Std.ExtTreeMap.maxKey?_eq_getLast?_keys.symm

theorem newest_listed (h : ∀ k ∈ b.snapshots.keys, k < 2 ^ 64) :
    (b.snapshots.keys.map snapshotKey).Pairwise (· < ·) ∧
      (b.snapshots.keys.map snapshotKey).getLast? = b.newest.map snapshotKey := by
  refine ⟨?_, List.getLast?_map ..⟩
  rw [List.pairwise_map]
  refine List.Pairwise.imp_of_mem ?_ Std.ExtTreeMap.ordered_keys
  intro k l hk hl hlt
  exact (snapshotKey_lt_iff (h k hk) (h l hl)).mpr (Nat.compare_eq_lt.mp hlt)

theorem Base.keysMatch (h : b.Base m) : m.KeysMatch := by
  rcases h with ⟨-, rfl⟩ | ⟨g, object, -, -, hopen⟩
  · exact .empty
  · exact SnapshotObject.keysMatch_of_open hopen

theorem openBase_eq_some (hrecorded : ∀ g, b.newest = some g → recorded ≤ g) :
    b.openBase recorded = some m ↔ b.Base m := by
  unfold openBase Base
  cases hnewest : b.newest with
  | none => simp [eq_comm]
  | some g =>
      have hle := hrecorded g hnewest
      simp only [Option.map_eq_some_iff, Prod.exists, openNewest_eq_some]
      constructor
      · rintro ⟨_, _, ⟨-, -, object, hobject, hopen⟩, rfl⟩
        exact .inr ⟨g, object, rfl, hobject, hopen⟩
      · rintro (⟨hnone, -⟩ | ⟨_, object, hg, hobject, hopen⟩)
        · cases hnone
        · cases hg
          exact ⟨m, _, ⟨hle, rfl, object, hobject, hopen⟩, rfl⟩

end Bucket

theorem decodeAll_spec {l : List (String × DeltaObject)} {ds : List DeltaEntry}
    (h : decodeAll l = some ds) (delta : DeltaEntry) :
    delta ∈ ds ↔ ∃ entry ∈ l, ∃ read, entry.2.payload = some read ∧ delta ∈ read := by
  induction l generalizing ds with
  | nil =>
      cases h
      simp
  | cons entry l ih =>
      simp only [decodeAll, Option.bind_eq_bind, Option.bind_eq_some_iff] at h
      obtain ⟨read, hread, more, hmore, hds⟩ := h
      cases hds
      simp only [List.mem_append, List.exists_mem_cons_iff, ih hmore, hread, Option.some.injEq,
        exists_eq_left']

theorem decodeAll_isSome {l : List (String × DeltaObject)} :
    (decodeAll l).isSome ↔ ∀ entry ∈ l, entry.2.payload ≠ none := by
  induction l with
  | nil => simp [decodeAll]
  | cons entry l ih =>
      obtain ⟨key, object⟩ := entry
      rw [List.forall_mem_cons, ← ih]
      cases hobject : object.payload with
      | none => simp [decodeAll, hobject]
      | some read => cases hl : decodeAll l <;> simp [decodeAll, hobject, hl]

namespace Bucket

variable {b b' : Bucket} {m view : Manifest} {g recorded lamport : ℕ} {ds : List DeltaEntry}

theorem mem_log_toList {key : String} {object : DeltaObject} :
    (key, object) ∈ b.log.toList ↔ b.log[key]? = some object :=
  Std.ExtTreeMap.mem_toList_iff_getElem?_eq_some

theorem mem_logDeltas (h : b.logDeltas = some ds) (delta : DeltaEntry) :
    delta ∈ ds ↔ b.InLog delta := by
  simp only [decodeAll_spec h, Prod.exists, mem_log_toList, InLog]
  grind

theorem logDeltas_isSome : b.logDeltas.isSome ↔ b.LogReads := by
  unfold logDeltas
  simp only [decodeAll_isSome, Prod.forall, mem_log_toList, LogReads]

/-- The manifest that the bucket merges to; its greatest lamport is then `remote_lamport`. -/
def MergesTo (b : Bucket) (view : Manifest) : Prop :=
  ∃ m ds, b.Base m ∧ b.logDeltas = some ds ∧ (mergeDeltas m ds).manifest = view

theorem MergesTo.keysMatch (h : b.MergesTo view) : view.KeysMatch := by
  obtain ⟨m, ds, hbase, -, rfl⟩ := h
  exact mergeDeltas_keysMatch hbase.keysMatch ds

theorem readView_eq_some (hrecorded : ∀ g, b.newest = some g → recorded ≤ g) :
    b.readView recorded = some (view, lamport) ↔ b.MergesTo view ∧ lamport = maxLamport view := by
  simp only [readView, Option.bind_eq_bind, Option.bind_eq_some_iff, openBase_eq_some hrecorded,
    Option.pure_def, Option.some.injEq, Prod.mk.injEq]
  constructor
  · rintro ⟨m, hbase, ds, hds, rfl, rfl⟩
    exact ⟨⟨m, ds, hbase, hds, rfl⟩, (maxLamport_mergeDeltas hbase.keysMatch ds).symm⟩
  · rintro ⟨⟨m, ds, hbase, hds, rfl⟩, rfl⟩
    exact ⟨m, hbase, ds, hds, rfl, (maxLamport_mergeDeltas hbase.keysMatch ds).symm⟩

end Bucket

theorem mergeDeltas_eq_self {m : Manifest} (h : m.KeysMatch) {ds : List DeltaEntry}
    (hds : ∀ d ∈ ds, m.Accounts d) : (mergeDeltas m ds).manifest = m := by
  refine Manifest.eq_of_registers_eq (mergeDeltas_keysMatch h ds) h ?_
  rw [registers_mergeDeltas h]
  exact LastWriter.Below.antisymm winnerKey_separates
    (LastWriter.absorbAll_below (.refl _) hds) (LastWriter.below_absorbAll _ ds)

namespace Bucket

variable {b b' : Bucket} {m view : Manifest} {g generation : ℕ} {ds : List DeltaEntry}

theorem MergesTo.accounts (h : b.MergesTo view) {delta : DeltaEntry} (hdelta : b.InLog delta) :
    view.Accounts delta := by
  obtain ⟨m, ds, hbase, hds, rfl⟩ := h
  exact Manifest.accounts_mergeDeltas hbase.keysMatch ((mem_logDeltas hds delta).mpr hdelta)

theorem MergesTo.logReads (h : b.MergesTo view) : b.LogReads := by
  obtain ⟨m, ds, -, hds, -⟩ := h
  exact logDeltas_isSome.mp (by rw [hds]; rfl)

theorem Base.mergesTo (h : b.Base m) (hlog : b.LogReads)
    (haccounts : ∀ delta, b.InLog delta → m.Accounts delta) : b.MergesTo m := by
  obtain ⟨ds, hds⟩ := Option.isSome_iff_exists.mp (logDeltas_isSome.mpr hlog)
  refine ⟨m, ds, h, hds, mergeDeltas_eq_self h.keysMatch fun d hd => ?_⟩
  exact haccounts d ((mem_logDeltas hds d).mp hd)

theorem newest_putSnapshot (stamp : Option ℕ) (h : ∀ g, b.newest = some g → g < generation) :
    (b.putSnapshot generation m stamp).newest = some generation := by
  rw [newest_eq_maxKey?, putSnapshot, Std.ExtTreeMap.maxKey?_insert]
  simp only [newest_eq_maxKey?] at h
  cases hnewest : b.snapshots.maxKey? with
  | none => rfl
  | some g =>
      have hle : g ≤ generation := (h g hnewest).le
      simp only [Option.elim_some, Nat.isLE_compare, hle, if_true]

theorem base_putSnapshot (stamp : Option ℕ) (hm : m.KeysMatch)
    (h : ∀ g, b.newest = some g → g < generation) :
    (b.putSnapshot generation m stamp).Base m := by
  refine .inr ⟨generation, ⟨generation, some m.values, stamp⟩, newest_putSnapshot stamp h, ?_, ?_⟩
  · simp [putSnapshot]
  · simp [SnapshotObject.open?, Manifest.ofEntries_values hm]

theorem newest_eraseSnapshot (h : ∀ g, b.newest = some g → generation ≠ g) :
    ({ b with snapshots := b.snapshots.erase generation } : Bucket).newest = b.newest := by
  simp only [newest_eq_maxKey?] at h ⊢
  refine Std.ExtTreeMap.maxKey?_erase_eq_of_not_compare_eq_maxKey? fun hmax heq => ?_
  exact h _ hmax (Std.compare_eq_iff_eq.mp heq)

theorem base_eraseSnapshot (h : ∀ g, b.newest = some g → generation ≠ g) (hbase : b.Base m) :
    ({ b with snapshots := b.snapshots.erase generation } : Bucket).Base m := by
  rcases hbase with ⟨hnone, rfl⟩ | ⟨g, object, hg, hobject, hopen⟩
  · exact .inl ⟨(newest_eraseSnapshot h).trans hnone, rfl⟩
  · refine .inr ⟨g, object, (newest_eraseSnapshot h).trans hg, ?_, hopen⟩
    have := h g hg
    simp [Std.ExtTreeMap.getElem?_erase, this, hobject]

theorem InLog.of_erase {key : String} {delta : DeltaEntry}
    (h : ({ b with log := b.log.erase key } : Bucket).InLog delta) : b.InLog delta := by
  obtain ⟨k, object, deltas, hobject, hdeltas, hdelta⟩ := h
  rw [StringMap.getElem?_erase] at hobject
  split_ifs at hobject
  exact ⟨k, object, deltas, hobject, hdeltas, hdelta⟩

theorem LogReads.erase (h : b.LogReads) (key : String) :
    ({ b with log := b.log.erase key } : Bucket).LogReads := by
  intro k object hobject
  rw [StringMap.getElem?_erase] at hobject
  split_ifs at hobject
  exact h k object hobject

theorem NewestLE.refl (b : Bucket) : b.NewestLE b := fun g hg => ⟨g, hg, le_rfl⟩

end Bucket

end FileMirror
