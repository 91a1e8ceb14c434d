import FileMirror.MergedView
import FileMirror.Transitions
import Mathlib.Logic.Function.Basic

set_option autoImplicit false

namespace FileMirror

open Transitions

variable {ι : Type}

/-- The devices and their bucket. The delta objects that were ever put, and the deltas that each
device found put when it last started, are recorded for the statements; no step reads them. -/
structure Site (ι : Type) where
  devices : ι → Device
  bucket : Bucket
  puts : List (String × List DeltaEntry)
  since : ι → List DeltaEntry

inductive Label (ι : Type) where
  | device (i : ι) (e : Event)
  | logDelta (key : String) (deltas : List DeltaEntry) (stamp : Option ℕ)

def archived (puts : List (String × List DeltaEntry)) : List DeltaEntry := puts.flatMap Prod.snd

def Bucket.logDelta (b : Bucket) (key : String) (deltas : List DeltaEntry) (stamp : Option ℕ) :
    Bucket :=
  let object : DeltaObject := ⟨some deltas, stamp⟩
  { b with log := b.log.insert key object }

namespace Site

def sinceAfter [DecidableEq ι] (s : Site ι) (i : ι) : Event → ι → List DeltaEntry
  | .start _ => Function.update s.since i (archived s.puts)
  | _ => s.since

def step [DecidableEq ι] (s : Site ι) : Label ι → Option (Site ι)
  | .device i e =>
      match (s.devices i).step s.bucket e with
      | none => none
      | some (d, b) => some
          { s with devices := Function.update s.devices i d, bucket := b, since := s.sinceAfter i e }
  | .logDelta key deltas stamp => some
      { s with bucket := s.bucket.logDelta key deltas stamp, puts := (key, deltas) :: s.puts }

end Site

namespace Bucket

def Opens (b : Bucket) (generation : Option ℕ) (m : Manifest) : Prop :=
  match generation with
  | none => m = ∅
  | some g => ∃ object, b.snapshots[g]? = some object ∧ object.open? g = some m

theorem base_iff_opens {b : Bucket} {m : Manifest} : b.Base m ↔ b.Opens b.newest m := by
  unfold Base Opens
  cases b.newest with
  | none => simp
  | some g => simp

theorem Base.unique {b : Bucket} {m m' : Manifest} (h : b.Base m) (h' : b.Base m') : m = m' := by
  have h := base_iff_opens.mp h
  have h' := base_iff_opens.mp h'
  unfold Opens at h h'
  cases hnewest : b.newest with
  | none =>
      rw [hnewest] at h h'
      exact h.trans h'.symm
  | some g =>
      rw [hnewest] at h h'
      obtain ⟨object, hobject, hopen⟩ := h
      obtain ⟨object', hobject', hopen'⟩ := h'
      rw [hobject, Option.some.injEq] at hobject'
      subst hobject'
      rw [hopen, Option.some.injEq] at hopen'
      exact hopen'

def Behind (b : Bucket) (generation : Option ℕ) : Prop :=
  ∀ g, generation = some g → ∃ n, b.newest = some n ∧ g ≤ n

end Bucket

def Device.MidRead (d : Device) (b : Bucket) (m : Manifest) : Prop :=
  match d.phase with
  | .listed newest => b.Opens (newest.map Prod.fst) m
  | .snapshotHeld s => m = s.manifest
  | _ => False

def Device.deletesDelta (d : Device) : Event → Option String
  | .next now _ =>
      match d.purpose, d.phase with
      | .compact grace _, .pruning _ ((key, modified) :: _) =>
          if prunable now grace modified then some key else none
      | _, _ => none
  | _ => none

/-- Nothing disturbs the step: a snapshot is put while the one it was folded from is the newest,
a delta goes only if every device in the middle of a read has it in its snapshot, and a delta
object has a key of its own. -/
def Site.Undisturbed (s : Site ι) : Label ι → Prop
  | .device i e =>
      (∀ f generation, (s.devices i).phase = .putting f generation →
        s.bucket.newest = f.snapshot.generation) ∧
      ∀ key object deltas, (s.devices i).deletesDelta e = some key →
        s.bucket.log[key]? = some object → object.payload = some deltas →
        ∀ j m, (s.devices j).MidRead s.bucket m → ∀ delta ∈ deltas, m.Accounts delta
  | .logDelta key _ _ => key ∉ s.puts.map Prod.fst

/-- The devices rest, the newest snapshot opens, and the log is what has been put. -/
structure Site.Initial (s : Site ι) : Prop where
  idle : ∀ i, (s.devices i).phase = .idle
  since : ∀ i, s.since i = []
  base : ∃ m, s.bucket.Base m
  logReads : s.bucket.LogReads
  puts : ∀ key deltas, (key, deltas) ∈ s.puts ↔
    ∃ object, s.bucket.log[key]? = some object ∧ object.payload = some deltas

structure Bucket.Remembers (b : Bucket) (s : Snapshot) : Prop where
  behind : b.Behind s.generation
  base : b.newest = s.generation → b.Base s.manifest
  keysMatch : s.manifest.KeysMatch

structure Folded.Complete (f : Folded) (puts : List (String × List DeltaEntry))
    (since : List DeltaEntry) : Prop where
  keysMatch : f.merged.manifest.KeysMatch
  snapshot : ∀ delta, f.snapshot.manifest.Accounts delta → f.merged.manifest.Accounts delta
  since : ∀ delta ∈ since, f.merged.manifest.Accounts delta
  listed : ∀ key ∈ f.metas.map Prod.fst, key ∈ puts.map Prod.fst
  metas : ∀ key ∈ f.metas.map Prod.fst, ∀ ds, (key, ds) ∈ puts →
    ∀ delta ∈ ds, f.merged.manifest.Accounts delta

/-- The newest snapshot is later than the one `f` was folded from and holds what `f` holds. -/
structure Bucket.Includes (b : Bucket) (f : Folded) : Prop where
  newest : ∃ n, b.newest = some n ∧ ∀ g, f.snapshot.generation = some g → g < n
  base : ∀ m, b.Base m → ∀ delta, f.merged.manifest.Accounts delta → m.Accounts delta

/-- What has been put under the pending keys makes up for what is not read yet. -/
structure Fetches (puts : List (String × List DeltaEntry)) (since : List DeltaEntry)
    (s : Snapshot) (keys pending : List String) (deltas : List DeltaEntry) : Prop where
  since : ∀ delta ∈ since, s.manifest.Accounts delta ∨ delta ∈ deltas ∨
    ∃ key ∈ pending, ∃ ds, (key, ds) ∈ puts ∧ delta ∈ ds
  listed : ∀ key ∈ keys, key ∈ puts.map Prod.fst
  keys : ∀ key ∈ keys, key ∈ pending ∨ ∀ ds, (key, ds) ∈ puts → ds ⊆ deltas

def Device.Tracks (d : Device) (b : Bucket) (puts : List (String × List DeltaEntry))
    (since : List DeltaEntry) : Prop :=
  match d.phase with
  | .idle | .collecting _ _ => True
  | .listed newest => b.Behind (newest.map Prod.fst) ∧
      ∀ m, b.Opens (newest.map Prod.fst) m → ∀ delta ∈ since, m.Accounts delta ∨ b.InLog delta
  | .snapshotHeld s => b.Remembers s ∧ ∀ delta ∈ since, s.manifest.Accounts delta ∨ b.InLog delta
  | .fetching s metas pending deltas =>
      b.Remembers s ∧ Fetches puts since s (metas.map Prod.fst) pending deltas
  | .folded f => b.Remembers f.snapshot ∧ f.Complete puts since
  | .putting f generation => b.Remembers f.snapshot ∧ f.Complete puts since ∧
      ∀ g, f.snapshot.generation = some g → g < generation
  | .pruning f todo => f.Complete puts since ∧ b.Includes f ∧
      ∀ key ∈ todo.map Prod.fst, key ∈ f.metas.map Prod.fst
  | .stored f _ | .recorded f | .verifying f _ | .dropped f | .refetching f _ _ =>
      f.Complete puts since ∧ b.Includes f

structure Evolves (b b' : Bucket) (puts puts' : List (String × List DeltaEntry)) : Prop where
  newest : b.NewestLE b'
  same : ∀ m, b'.newest = b.newest → b.Base m → b'.Base m
  base : ∀ m', b'.Base m' → ∃ m, b.Base m ∧ ∀ delta, m.Accounts delta → m'.Accounts delta
  objects : ∀ g n, b.newest = some n → g ≤ n → ∀ object, b'.snapshots[g]? = some object →
    b.snapshots[g]? = some object
  kept : puts ⊆ puts'
  fresh : ∀ key ds, (key, ds) ∈ puts' → key ∈ puts.map Prod.fst → (key, ds) ∈ puts

section Frame

variable {b b' : Bucket} {puts puts' : List (String × List DeltaEntry)} {since : List DeltaEntry}
  {f : Folded} {s : Snapshot} {d : Device}

theorem Bucket.Behind.mono {generation : Option ℕ} (h : b.Behind generation)
    (hle : b.NewestLE b') : b'.Behind generation := by
  intro g hg
  obtain ⟨n, hn, hgn⟩ := h g hg
  obtain ⟨n', hn', hnn'⟩ := hle n hn
  exact ⟨n', hn', hgn.trans hnn'⟩

theorem Evolves.newest_eq {generation : Option ℕ} (h : Evolves b b' puts puts')
    (hbehind : b.Behind generation) (hnewest : b'.newest = generation) :
    b.newest = generation := by
  cases hg : generation with
  | none =>
      cases hb : b.newest with
      | none => rfl
      | some n =>
          obtain ⟨n', hn', -⟩ := h.newest n hb
          rw [hnewest, hg] at hn'
          cases hn'
  | some g =>
      obtain ⟨n, hn, hgn⟩ := hbehind g hg
      obtain ⟨n', hn', hnn'⟩ := h.newest n hn
      rw [hnewest, hg, Option.some.injEq] at hn'
      rw [hn]
      congr
      omega

theorem Bucket.Remembers.mono (h : b.Remembers s) (he : Evolves b b' puts puts') :
    b'.Remembers s where
  behind := h.behind.mono he.newest
  base := fun hnewest => by
    have hbefore := he.newest_eq h.behind hnewest
    exact he.same _ (hnewest.trans hbefore.symm) (h.base hbefore)
  keysMatch := h.keysMatch

theorem Folded.Complete.mono (h : f.Complete puts since) (he : Evolves b b' puts puts') :
    f.Complete puts' since where
  keysMatch := h.keysMatch
  snapshot := h.snapshot
  since := h.since
  listed := fun key hkey => List.map_subset _ he.kept (h.listed key hkey)
  metas := fun key hkey ds hds => h.metas key hkey ds (he.fresh key ds hds (h.listed key hkey))

theorem Bucket.Includes.mono (h : b.Includes f) (he : Evolves b b' puts puts') : b'.Includes f where
  newest := by
    obtain ⟨n, hn, hlt⟩ := h.newest
    obtain ⟨n', hn', hle⟩ := he.newest n hn
    exact ⟨n', hn', fun g hg => (hlt g hg).trans_le hle⟩
  base := by
    intro m' hm' delta hdelta
    obtain ⟨m, hm, hmm'⟩ := he.base m' hm'
    exact hmm' delta (h.base m hm delta hdelta)

theorem Fetches.mono {keys pending : List String} {deltas : List DeltaEntry}
    (h : Fetches puts since s keys pending deltas) (he : Evolves b b' puts puts') :
    Fetches puts' since s keys pending deltas where
  since := by
    intro delta hdelta
    rcases h.since delta hdelta with hs | hd | ⟨key, hkey, ds, hds, hmem⟩
    · exact .inl hs
    · exact .inr (.inl hd)
    · exact .inr (.inr ⟨key, hkey, ds, he.kept hds, hmem⟩)
  listed := fun key hkey => List.map_subset _ he.kept (h.listed key hkey)
  keys := fun key hkey => (h.keys key hkey).imp_right fun hread ds hds =>
    hread ds (he.fresh key ds hds (h.listed key hkey))

theorem Bucket.Opens.back {generation : Option ℕ} {m : Manifest} (he : Evolves b b' puts puts')
    (hbehind : b.Behind generation) (h : b'.Opens generation m) : b.Opens generation m := by
  cases generation with
  | none => exact h
  | some g =>
      obtain ⟨object, hobject, hopen⟩ := h
      obtain ⟨n, hn, hle⟩ := hbehind g rfl
      exact ⟨object, he.objects g n hn hle object hobject, hopen⟩

/-- What others do leaves a device's knowledge true, as long as a delta that goes is one that the
device has in its snapshot. -/
theorem Device.Tracks.mono (h : d.Tracks b puts since) (he : Evolves b b' puts puts')
    (hlog : ∀ delta, b.InLog delta → b'.InLog delta ∨ ∀ m, d.MidRead b m → m.Accounts delta) :
    d.Tracks b' puts' since := by
  obtain ⟨g, p, phase⟩ := d
  cases phase with
  | idle => trivial
  | collecting referenced todo => trivial
  | listed newest =>
      obtain ⟨hbehind, hsince⟩ := h
      refine ⟨hbehind.mono he.newest, fun m hm delta hdelta => ?_⟩
      have hopens := hm.back he hbehind
      rcases hsince m hopens delta hdelta with haccounts | hin
      · exact .inl haccounts
      · exact (hlog delta hin).symm.imp_left fun hread => hread m hopens
  | snapshotHeld s =>
      obtain ⟨hremembers, hsince⟩ := h
      refine ⟨hremembers.mono he, fun delta hdelta => ?_⟩
      rcases hsince delta hdelta with haccounts | hin
      · exact .inl haccounts
      · exact (hlog delta hin).symm.imp_left fun hread => hread s.manifest rfl
  | fetching s metas pending deltas => exact ⟨h.1.mono he, h.2.mono he⟩
  | folded f => exact ⟨h.1.mono he, h.2.mono he⟩
  | putting f generation => exact ⟨h.1.mono he, h.2.1.mono he, h.2.2⟩
  | pruning f todo => exact ⟨h.1.mono he, h.2.1.mono he, h.2.2⟩
  | stored f generation => exact ⟨h.1.mono he, h.2.mono he⟩
  | recorded f => exact ⟨h.1.mono he, h.2.mono he⟩
  | verifying f newest => exact ⟨h.1.mono he, h.2.mono he⟩
  | dropped f => exact ⟨h.1.mono he, h.2.mono he⟩
  | refetching f pending deltas => exact ⟨h.1.mono he, h.2.mono he⟩

end Frame

/-- What holds of the bucket and of what was ever put into its log. -/
structure Bucket.Sound (b : Bucket) (puts : List (String × List DeltaEntry)) : Prop where
  logged : ∀ key object, b.log[key]? = some object →
    ∃ ds, object.payload = some ds ∧ (key, ds) ∈ puts
  unique : ∀ key ds ds', (key, ds) ∈ puts → (key, ds') ∈ puts → ds = ds'
  base : ∃ m, b.Base m ∧ ∀ delta ∈ archived puts, m.Accounts delta ∨ b.InLog delta

section Changes

variable {b : Bucket} {puts : List (String × List DeltaEntry)} {since : List DeltaEntry}
  {f : Folded}

theorem mem_archived {delta : DeltaEntry} :
    delta ∈ archived puts ↔ ∃ key ds, (key, ds) ∈ puts ∧ delta ∈ ds := by
  simp only [archived, List.mem_flatMap, Prod.exists]

theorem Evolves.of_snapshots {b' : Bucket} {puts' : List (String × List DeltaEntry)}
    (h : b'.snapshots = b.snapshots) (hkept : puts ⊆ puts')
    (hfresh : ∀ key ds, (key, ds) ∈ puts' → key ∈ puts.map Prod.fst → (key, ds) ∈ puts) :
    Evolves b b' puts puts' := by
  have hnewest : b'.newest = b.newest := congrArg (fun s => s.keys.getLast?) h
  have hbase : ∀ m, b'.Base m ↔ b.Base m := by
    intro m
    unfold Bucket.Base
    rw [hnewest, h]
  exact ⟨fun n hn => ⟨n, hnewest.trans hn, le_rfl⟩, fun m _ => (hbase m).mpr,
    fun m hm => ⟨m, (hbase m).mp hm, fun _ => id⟩, fun _ _ _ _ _ hobject => h ▸ hobject,
    hkept, hfresh⟩

theorem Evolves.put {generation : ℕ} (stamp : Option ℕ) (hremembers : b.Remembers f.snapshot)
    (hcomplete : f.Complete puts since) (hnew : ∀ g, f.snapshot.generation = some g → g < generation)
    (hguard : b.newest = f.snapshot.generation) :
    Evolves b (b.putSnapshot generation f.merged.manifest stamp) puts puts := by
  have hlt : ∀ g, b.newest = some g → g < generation := fun g hg => hnew g (hguard ▸ hg)
  have hnewest := Bucket.newest_putSnapshot (m := f.merged.manifest) stamp hlt
  have hbase := Bucket.base_putSnapshot stamp hcomplete.keysMatch hlt
  refine ⟨fun n hn => ⟨generation, hnewest, (hlt n hn).le⟩, ?_, ?_, ?_, fun _ => id,
    fun _ _ h _ => h⟩
  · intro m hsame
    rw [hnewest] at hsame
    exact absurd (hlt generation hsame.symm) (lt_irrefl _)
  · intro m' hm'
    rw [hm'.unique hbase]
    exact ⟨_, hremembers.base hguard, hcomplete.snapshot⟩
  · intro g n hn hle object hobject
    have hne : generation ≠ g := by
      have := hlt n hn
      omega
    simpa [Bucket.putSnapshot, Std.ExtTreeMap.getElem?_insert, hne] using hobject

theorem Evolves.eraseSnapshot {g n : ℕ} (hn : b.newest = some n) (hlt : g < n) :
    Evolves b { b with snapshots := b.snapshots.erase g } puts puts := by
  have hold : ∀ n', b.newest = some n' → g ≠ n' := by
    intro n' hn'
    rw [hn, Option.some.injEq] at hn'
    omega
  have hnewest := Bucket.newest_eraseSnapshot hold
  have hobjects : ∀ (k : ℕ) (object : SnapshotObject),
      ({ b with snapshots := b.snapshots.erase g } : Bucket).snapshots[k]? = some object →
        b.snapshots[k]? = some object := by
    intro k object hobject
    simp only [Std.ExtTreeMap.getElem?_erase] at hobject
    split_ifs at hobject
    exact hobject
  refine ⟨fun n hn => ⟨n, hnewest.trans hn, le_rfl⟩, fun m _ => Bucket.base_eraseSnapshot hold, ?_,
    fun k _ _ _ => hobjects k, fun _ => id, fun _ _ h _ => h⟩
  intro m hm
  rcases hm with ⟨hnone, -⟩ | ⟨k, object, hk, hobject, hopen⟩
  · rw [hnewest, hn] at hnone
    cases hnone
  · exact ⟨m, .inr ⟨k, object, hnewest ▸ hk, hobjects k object hobject, hopen⟩, fun _ => id⟩

namespace Bucket.Sound

theorem log_key (h : b.Sound puts) {key : String} (hkey : key ∈ (listLog b).map Prod.fst) :
    key ∈ puts.map Prod.fst := by
  simp only [listLog, List.map_map, List.mem_map, Function.comp_apply, Prod.exists,
    mem_log_toList] at hkey
  obtain ⟨k, object, hobject, rfl⟩ := hkey
  obtain ⟨ds, -, hds⟩ := h.logged k object hobject
  exact List.mem_map.mpr ⟨_, hds, rfl⟩

theorem inLog (h : b.Sound puts) {delta : DeltaEntry} (hdelta : b.InLog delta) :
    ∃ key ∈ (listLog b).map Prod.fst, ∃ ds, (key, ds) ∈ puts ∧ delta ∈ ds := by
  obtain ⟨key, object, ds, hobject, hpayload, hmem⟩ := hdelta
  obtain ⟨ds', hpayload', hds'⟩ := h.logged key object hobject
  rw [hpayload, Option.some.injEq] at hpayload'
  subst hpayload'
  refine ⟨key, ?_, ds, hds', hmem⟩
  simp only [listLog, List.map_map, List.mem_map, Function.comp_apply, Prod.exists, mem_log_toList]
  exact ⟨key, object, hobject, rfl⟩

theorem fetched (h : b.Sound puts) {key : String} {read ds : List DeltaEntry}
    (hread : b.log[key]?.bind DeltaObject.payload = some read) (hds : (key, ds) ∈ puts) :
    ds = read := by
  obtain ⟨object, hobject, hpayload⟩ := Option.bind_eq_some_iff.mp hread
  obtain ⟨ds', hpayload', hds'⟩ := h.logged key object hobject
  rw [hpayload, Option.some.injEq] at hpayload'
  subst hpayload'
  exact h.unique key ds read hds hds'

theorem logReads (h : b.Sound puts) : b.LogReads := by
  intro key object hobject hnone
  obtain ⟨ds, hpayload, -⟩ := h.logged key object hobject
  rw [hnone] at hpayload
  cases hpayload

theorem put {generation : ℕ} (stamp : Option ℕ) (h : b.Sound puts)
    (hremembers : b.Remembers f.snapshot) (hcomplete : f.Complete puts since)
    (hnew : ∀ g, f.snapshot.generation = some g → g < generation)
    (hguard : b.newest = f.snapshot.generation) :
    (b.putSnapshot generation f.merged.manifest stamp).Sound puts where
  logged := h.logged
  unique := h.unique
  base := by
    obtain ⟨m, hm, hall⟩ := h.base
    refine ⟨_, base_putSnapshot stamp hcomplete.keysMatch (fun g hg => hnew g (hguard ▸ hg)), ?_⟩
    intro delta hdelta
    refine (hall delta hdelta).imp_left fun haccounts => hcomplete.snapshot delta ?_
    rwa [(hremembers.base hguard).unique hm]

theorem eraseSnapshot {g n : ℕ} (h : b.Sound puts) (hn : b.newest = some n) (hlt : g < n) :
    ({ b with snapshots := b.snapshots.erase g } : Bucket).Sound puts where
  logged := h.logged
  unique := h.unique
  base := by
    obtain ⟨m, hm, hall⟩ := h.base
    refine ⟨m, base_eraseSnapshot (fun n' hn' => ?_) hm, hall⟩
    rw [hn, Option.some.injEq] at hn'
    omega

theorem eraseDelta {key : String} (h : b.Sound puts) (hincludes : b.Includes f)
    (hcovered : ∀ ds, (key, ds) ∈ puts → ∀ delta ∈ ds, f.merged.manifest.Accounts delta) :
    ({ b with log := b.log.erase key } : Bucket).Sound puts where
  logged := by
    intro k object hobject
    rw [StringMap.getElem?_erase] at hobject
    split_ifs at hobject
    exact h.logged k object hobject
  unique := h.unique
  base := by
    obtain ⟨m, hm, hall⟩ := h.base
    refine ⟨m, hm, fun delta hdelta => ?_⟩
    rcases hall delta hdelta with haccounts | ⟨k, object, ds, hobject, hpayload, hmem⟩
    · exact .inl haccounts
    · by_cases hk : key = k
      · subst hk
        obtain ⟨ds', hpayload', hds'⟩ := h.logged key object hobject
        rw [hpayload, Option.some.injEq] at hpayload'
        subst hpayload'
        exact .inl (hincludes.base m hm delta (hcovered ds hds' delta hmem))
      · refine .inr ⟨k, object, ds, ?_, hpayload, hmem⟩
        rw [StringMap.getElem?_erase, if_neg hk]
        exact hobject

theorem inLog_logDelta {key : String} {deltas : List DeltaEntry} {stamp : Option ℕ}
    (h : b.Sound puts) (hfresh : key ∉ puts.map Prod.fst) {delta : DeltaEntry}
    (hdelta : delta ∈ deltas ∨ b.InLog delta) : (b.logDelta key deltas stamp).InLog delta := by
  rcases hdelta with hdelta | ⟨k, object, ds, hobject, hpayload, hmem⟩
  · exact ⟨key, ⟨some deltas, stamp⟩, deltas, by simp [logDelta], rfl, hdelta⟩
  · refine ⟨k, object, ds, ?_, hpayload, hmem⟩
    obtain ⟨ds', -, hds'⟩ := h.logged k object hobject
    have hne : key ≠ k := fun heq => hfresh (List.mem_map.mpr ⟨_, hds', heq.symm⟩)
    simp [logDelta, StringMap.getElem?_insert, hne, hobject]

theorem logDelta {key : String} {deltas : List DeltaEntry} {stamp : Option ℕ}
    (h : b.Sound puts) (hfresh : key ∉ puts.map Prod.fst) :
    (b.logDelta key deltas stamp).Sound ((key, deltas) :: puts) where
  logged := by
    intro k object hobject
    simp only [Bucket.logDelta, StringMap.getElem?_insert] at hobject
    split_ifs at hobject with hk
    · cases hobject
      exact ⟨deltas, rfl, by simp [hk]⟩
    · obtain ⟨ds, hpayload, hds⟩ := h.logged k object hobject
      exact ⟨ds, hpayload, List.mem_cons_of_mem _ hds⟩
  unique := by
    have absent : ∀ ds, (key, ds) ∉ puts := fun ds hds => hfresh (List.mem_map.mpr ⟨_, hds, rfl⟩)
    intro k ds ds' hds hds'
    simp only [List.mem_cons, Prod.mk.injEq] at hds hds'
    rcases hds with ⟨rfl, rfl⟩ | hds <;> rcases hds' with ⟨hk, rfl⟩ | hds'
    · rfl
    · exact absurd hds' (absent ds')
    · exact absurd (hk ▸ hds) (absent ds)
    · exact h.unique k ds ds' hds hds'
  base := by
    obtain ⟨m, hm, hall⟩ := h.base
    refine ⟨m, hm, fun delta hdelta => ?_⟩
    rw [archived, List.flatMap_cons, List.mem_append] at hdelta
    rcases hdelta with hdelta | hdelta
    · exact .inr (h.inLog_logDelta hfresh (.inl hdelta))
    · exact (hall delta hdelta).imp_right fun hin => h.inLog_logDelta hfresh (.inr hin)

end Bucket.Sound

end Changes

def sinceOf (puts : List (String × List DeltaEntry)) (since : List DeltaEntry) :
    Event → List DeltaEntry
  | .start _ => archived puts
  | _ => since

structure Moved (puts : List (String × List DeltaEntry)) (since : List DeltaEntry) (b : Bucket)
    (d : Device) (e : Event) (d' : Device) (b' : Bucket) : Prop where
  tracks : d'.Tracks b' puts (sinceOf puts since e)
  sound : b'.Sound puts
  evolves : Evolves b b' puts puts
  log : ∀ delta, b.InLog delta → b'.InLog delta ∨ ∃ key object deltas,
    d.deletesDelta e = some key ∧ b.log[key]? = some object ∧ object.payload = some deltas ∧
      delta ∈ deltas

section Moves

variable {b b' : Bucket} {puts : List (String × List DeltaEntry)} {since : List DeltaEntry}
  {f : Folded} {d d' : Device} {e : Event}

theorem Moved.still (hsound : b.Sound puts) (hb : b'.snapshots = b.snapshots ∧ b'.log = b.log)
    (htracks : d'.Tracks b' puts (sinceOf puts since e)) : Moved puts since b d e d' b' where
  tracks := htracks
  sound := by
    obtain ⟨hsnapshots, hlog⟩ := hb
    cases b
    cases b'
    cases hsnapshots
    cases hlog
    exact ⟨hsound.logged, hsound.unique, hsound.base⟩
  evolves := .of_snapshots hb.1 (fun _ => id) fun _ _ h _ => h
  log := fun delta hdelta => .inl (by
    unfold Bucket.InLog
    rw [hb.2]
    exact hdelta)

theorem Fetches.start {s : Snapshot} (hsound : b.Sound puts)
    (hsince : ∀ delta ∈ since, s.manifest.Accounts delta ∨ b.InLog delta) :
    Fetches puts since s ((listLog b).map Prod.fst) ((listLog b).map Prod.fst) [] where
  since := fun delta hdelta => (hsince delta hdelta).imp_right fun hin => .inr (hsound.inLog hin)
  listed := fun _ => hsound.log_key
  keys := fun _ => .inl

theorem Fetches.fetch {s : Snapshot} {keys pending : List String} {deltas read : List DeltaEntry}
    {key : String} (h : Fetches puts since s keys pending deltas) (hsound : b.Sound puts)
    (hread : b.log[key]?.bind DeltaObject.payload = some read) :
    Fetches puts since s keys (pending.erase key) (deltas ++ read) where
  since := by
    intro delta hdelta
    rcases h.since delta hdelta with hs | hd | ⟨k, hk, ds, hds, hmem⟩
    · exact .inl hs
    · exact .inr (.inl (List.mem_append_left _ hd))
    · by_cases heq : k = key
      · subst heq
        rw [hsound.fetched hread hds] at hmem
        exact .inr (.inl (List.mem_append_right _ hmem))
      · exact .inr (.inr ⟨k, (List.mem_erase_of_ne heq).mpr hk, ds, hds, hmem⟩)
  listed := h.listed
  keys := by
    intro k hk
    by_cases heq : k = key
    · subst heq
      refine .inr fun ds hds => ?_
      rw [hsound.fetched hread hds]
      exact List.subset_append_right _ _
    · refine (h.keys k hk).imp (List.mem_erase_of_ne heq).mpr fun hsub ds hds => ?_
      exact List.subset_append_of_subset_left _ (hsub ds hds)

theorem Fetches.complete {s : Snapshot} {metas : List (String × Option ℕ)}
    {deltas : List DeltaEntry} (h : Fetches puts since s (metas.map Prod.fst) [] deltas)
    (hkeys : s.manifest.KeysMatch) :
    Folded.Complete ⟨s, metas, mergeDeltas s.manifest deltas⟩ puts since where
  keysMatch := mergeDeltas_keysMatch hkeys deltas
  snapshot := fun _ haccounts => haccounts.merged hkeys deltas
  since := by
    intro delta hdelta
    rcases h.since delta hdelta with hs | hd | ⟨_, hkey, _⟩
    · exact hs.merged hkeys deltas
    · exact Manifest.accounts_mergeDeltas hkeys hd
    · cases hkey
  listed := h.listed
  metas := by
    intro key hkey ds hds delta hdelta
    rcases h.keys key hkey with hpending | hread
    · cases hpending
    · exact Manifest.accounts_mergeDeltas hkeys (hread ds hds hdelta)

theorem Bucket.Remembers.opened {g : ℕ} {m : Manifest} {object : SnapshotObject}
    {modified : Option ℕ} (hbehind : b.Behind (some g)) (hobject : b.snapshots[g]? = some object)
    (hopen : object.open? g = some m) : b.Remembers ⟨m, some g, modified⟩ where
  behind := hbehind
  base := fun hnewest => .inr ⟨g, object, hnewest, hobject, hopen⟩
  keysMatch := SnapshotObject.keysMatch_of_open hopen

theorem listNewest_fst (b : Bucket) : (listNewest b).map Prod.fst = b.newest := by
  unfold listNewest
  cases b.newest <;> rfl

theorem Bucket.Sound.listed (h : b.Sound puts) {newest : Option (ℕ × Option ℕ)}
    (hnewest : newest.map Prod.fst = b.newest) : b.Behind (newest.map Prod.fst) ∧
      ∀ m, b.Opens (newest.map Prod.fst) m → ∀ delta ∈ archived puts,
        m.Accounts delta ∨ b.InLog delta := by
  rw [hnewest]
  refine ⟨fun g hg => ⟨g, hg, le_rfl⟩, fun m hm => ?_⟩
  obtain ⟨m', hm', hall⟩ := h.base
  rw [(base_iff_opens.mpr hm).unique hm']
  exact hall

theorem Moved.put {g generation : ℕ} {p : Purpose} {now : ℕ} {stamp : Option ℕ}
    (hsound : b.Sound puts)
    (htracks : (⟨g, p, .putting f generation⟩ : Device).Tracks b puts since)
    (hguard : b.newest = f.snapshot.generation) :
    Moved puts since b ⟨g, p, .putting f generation⟩ (.next now stamp) ⟨g, p, .stored f generation⟩
      (b.putSnapshot generation f.merged.manifest stamp) := by
  obtain ⟨hremembers, hcomplete, hnew⟩ := htracks
  have hlt : ∀ g, b.newest = some g → g < generation := fun g hg => hnew g (hguard ▸ hg)
  refine ⟨⟨hcomplete, ⟨generation, Bucket.newest_putSnapshot stamp hlt, hnew⟩, ?_⟩,
    hsound.put stamp hremembers hcomplete hnew hguard,
    .put stamp hremembers hcomplete hnew hguard, fun _ => .inl⟩
  intro m hm delta hdelta
  rwa [hm.unique (Bucket.base_putSnapshot stamp hcomplete.keysMatch hlt)]

theorem Moved.pruneDelta {g grace retention now : ℕ} {stamp : Option ℕ} {key : String}
    {modified : Option ℕ} {todo : List (String × Option ℕ)}
    (hsound : b.Sound puts)
    (htracks : (⟨g, .compact grace retention, .pruning f ((key, modified) :: todo)⟩ : Device).Tracks
      b puts since) (hold : prunable now grace modified = true) :
    Moved puts since b ⟨g, .compact grace retention, .pruning f ((key, modified) :: todo)⟩
      (.next now stamp) ⟨g, .compact grace retention, .pruning f todo⟩
      { b with log := b.log.erase key } := by
  obtain ⟨hcomplete, hincludes, htodo⟩ := htracks
  have hkey : key ∈ f.metas.map Prod.fst := htodo key (by simp)
  refine ⟨⟨hcomplete, ⟨hincludes.newest, hincludes.base⟩, fun k hk => htodo k (by simp_all)⟩,
    hsound.eraseDelta hincludes (hcomplete.metas key hkey),
    .of_snapshots rfl (fun _ => id) fun _ _ h _ => h, fun delta hdelta => ?_⟩
  obtain ⟨k, object, ds, hobject, hpayload, hmem⟩ := hdelta
  by_cases hk : key = k
  · subst hk
    exact .inr ⟨key, object, ds, by simp [Device.deletesDelta, hold], hobject, hpayload, hmem⟩
  · refine .inl ⟨k, object, ds, ?_, hpayload, hmem⟩
    rw [StringMap.getElem?_erase, if_neg hk]
    exact hobject

theorem Moved.dropSnapshot {g grace retention now generation : ℕ} {stamp : Option ℕ}
    (hsound : b.Sound puts)
    (htracks : (⟨g, .compact grace retention, .pruning f []⟩ : Device).Tracks b puts since)
    (hgeneration : f.snapshot.generation = some generation) :
    Moved puts since b ⟨g, .compact grace retention, .pruning f []⟩ (.next now stamp)
      ⟨g, .compact grace retention, .dropped f⟩
      { b with snapshots := b.snapshots.erase generation } := by
  obtain ⟨hcomplete, hincludes, -⟩ := htracks
  obtain ⟨n, hn, hlt⟩ := hincludes.newest
  have hevolves : Evolves b _ puts puts := .eraseSnapshot hn (hlt generation hgeneration)
  exact ⟨⟨hcomplete, hincludes.mono hevolves⟩,
    hsound.eraseSnapshot hn (hlt generation hgeneration), hevolves, fun _ => .inl⟩

theorem Device.Tracks.moved (htracks : d.Tracks b puts since) (hsound : b.Sound puts)
    (hmoves : Moves b d e d' b')
    (hguard : ∀ f generation, d.phase = .putting f generation → b.newest = f.snapshot.generation) :
    Moved puts since b d e d' b' := by
  cases hmoves with
  | start => exact .still hsound ⟨rfl, rfl⟩ (hsound.listed (listNewest_fst b))
  | stop => exact .still hsound ⟨rfl, rfl⟩ trivial
  | empty =>
      obtain ⟨hbehind, hsince⟩ := htracks
      refine .still hsound ⟨rfl, rfl⟩ ⟨⟨hbehind, fun hnewest => .inl ⟨hnewest, rfl⟩, .empty⟩, ?_⟩
      exact hsince ∅ rfl
  | opened hopen =>
      obtain ⟨-, -, object, hobject, hm⟩ := openNewest_eq_some.mp hopen
      obtain ⟨hbehind, hsince⟩ := htracks
      exact .still hsound ⟨rfl, rfl⟩
        ⟨.opened hbehind hobject hm, hsince _ ⟨object, hobject, hm⟩⟩
  | listLog => exact .still hsound ⟨rfl, rfl⟩ ⟨htracks.1, .start hsound htracks.2⟩
  | fetch hkey hread =>
      exact .still hsound ⟨rfl, rfl⟩ ⟨htracks.1, htracks.2.fetch hsound hread⟩
  | merge =>
      exact .still hsound ⟨rfl, rfl⟩ ⟨htracks.1, htracks.2.complete htracks.1.keysMatch⟩
  | choose hbound =>
      refine .still hsound ⟨rfl, rfl⟩ ⟨htracks.1, htracks.2, fun g hg => ?_⟩
      obtain ⟨n, hn, hle⟩ := htracks.1.behind g hg
      rw [hn, Option.getD_some]
      omega
  | put => exact .put hsound htracks (hguard _ _ rfl)
  | record => exact .still hsound ⟨rfl, rfl⟩ htracks
  | relist => exact .still hsound ⟨rfl, rfl⟩ htracks
  | verifiedEmpty =>
      exact .still hsound ⟨rfl, rfl⟩ ⟨htracks.1, htracks.2, fun _ => id⟩
  | verified hopen =>
      exact .still hsound ⟨rfl, rfl⟩ ⟨htracks.1, htracks.2, fun _ => id⟩
  | mismatch hopen => exact .still hsound ⟨rfl, rfl⟩ trivial
  | keepDelta =>
      exact .still hsound ⟨rfl, rfl⟩
        ⟨htracks.1, htracks.2.1, fun k hk => htracks.2.2 k (List.mem_cons_of_mem _ hk)⟩
  | pruneDelta hold => exact .pruneDelta hsound htracks hold
  | keepSnapshot => exact .still hsound ⟨rfl, rfl⟩ ⟨htracks.1, htracks.2.1⟩
  | dropSnapshot hgeneration => exact .dropSnapshot hsound htracks hgeneration
  | relistLog => exact .still hsound ⟨rfl, rfl⟩ htracks
  | refetch hkey hread => exact .still hsound ⟨rfl, rfl⟩ htracks
  | listData => exact .still hsound ⟨rfl, rfl⟩ trivial
  | keepData => exact .still hsound ⟨rfl, rfl⟩ trivial
  | deleteData hkey => exact .still hsound ⟨rfl, rfl⟩ trivial

end Moves

namespace Site

structure Invariant (s : Site ι) : Prop where
  sound : s.bucket.Sound s.puts
  tracks : ∀ i, (s.devices i).Tracks s.bucket s.puts (s.since i)

theorem Initial.invariant {s : Site ι} (h : s.Initial) : s.Invariant where
  sound := by
    refine ⟨fun key object hobject => ?_, fun key ds ds' hds hds' => ?_, ?_⟩
    · obtain ⟨ds, hds⟩ := Option.ne_none_iff_exists'.mp (h.logReads key object hobject)
      exact ⟨ds, hds, (h.puts key ds).mpr ⟨object, hobject, hds⟩⟩
    · obtain ⟨object, hobject, hpayload⟩ := (h.puts key ds).mp hds
      obtain ⟨object', hobject', hpayload'⟩ := (h.puts key ds').mp hds'
      rw [hobject, Option.some.injEq] at hobject'
      subst hobject'
      rwa [hpayload, Option.some.injEq] at hpayload'
    · obtain ⟨m, hm⟩ := h.base
      refine ⟨m, hm, fun delta hdelta => .inr ?_⟩
      obtain ⟨key, ds, hds, hmem⟩ := mem_archived.mp hdelta
      obtain ⟨object, hobject, hpayload⟩ := (h.puts key ds).mp hds
      exact ⟨key, object, ds, hobject, hpayload, hmem⟩
  tracks := by
    intro i
    unfold Device.Tracks
    rw [h.idle i]
    trivial

theorem sinceAfter_self [DecidableEq ι] (s : Site ι) (i : ι) (e : Event) :
    s.sinceAfter i e i = sinceOf s.puts (s.since i) e := by
  cases e with
  | start purpose => exact Function.update_self ..
  | _ => rfl

theorem sinceAfter_of_ne [DecidableEq ι] (s : Site ι) {i j : ι} (e : Event) (h : j ≠ i) :
    s.sinceAfter i e j = s.since j := by
  cases e with
  | start purpose => exact Function.update_of_ne h ..
  | _ => rfl

theorem Invariant.device [DecidableEq ι] {s : Site ι} {i : ι} {e : Event} {d : Device} {b : Bucket}
    (h : s.Invariant) (hguard : s.Undisturbed (.device i e))
    (hstep : (s.devices i).step s.bucket e = some (d, b)) :
    Invariant { s with devices := Function.update s.devices i d, bucket := b,
                       since := s.sinceAfter i e } := by
  obtain ⟨hput, hdelete⟩ := hguard
  have hmoved := (h.tracks i).moved h.sound (Device.step_moves hstep) hput
  refine ⟨hmoved.sound, fun j => ?_⟩
  change (Function.update s.devices i d j).Tracks b s.puts (s.sinceAfter i e j)
  by_cases hj : j = i
  · subst hj
    rw [Function.update_self, sinceAfter_self]
    exact hmoved.tracks
  · rw [Function.update_of_ne hj, sinceAfter_of_ne s e hj]
    refine (h.tracks j).mono hmoved.evolves fun delta hdelta => ?_
    refine (hmoved.log delta hdelta).imp_right ?_
    rintro ⟨key, object, ds, hkey, hobject, hpayload, hmem⟩ m hread
    exact hdelete key object ds hkey hobject hpayload j m hread delta hmem

theorem Invariant.logDelta {s : Site ι} {key : String} {deltas : List DeltaEntry}
    {stamp : Option ℕ} (h : s.Invariant) (hfresh : key ∉ s.puts.map Prod.fst) :
    Invariant { s with bucket := s.bucket.logDelta key deltas stamp
                       puts := (key, deltas) :: s.puts } := by
  refine ⟨h.sound.logDelta hfresh, fun j => ?_⟩
  refine (h.tracks j).mono (.of_snapshots rfl (List.subset_cons_self ..) ?_) fun delta hdelta =>
    .inl (h.sound.inLog_logDelta hfresh (.inr hdelta))
  intro k ds hds hk
  rcases List.mem_cons.mp hds with heq | hds
  · cases heq
    exact absurd hk hfresh
  · exact hds

theorem Invariant.step [DecidableEq ι] {s t : Site ι} {l : Label ι} (h : s.Invariant)
    (hguard : s.Undisturbed l)     (hstep : s.step l = some t) : t.Invariant := by
  cases l with
  | device i e =>
      simp only [Site.step] at hstep
      cases hdevice : (s.devices i).step s.bucket e with
      | none => simp [hdevice] at hstep
      | some moved =>
          rw [hdevice] at hstep
          cases hstep
          exact h.device hguard hdevice
  | logDelta key deltas stamp =>
      cases hstep
      exact h.logDelta hguard

end Site

/-- In a run without disturbance the bucket merges to a view that holds every delta ever put, and
every finished read holds every delta that had been put before it started. -/
theorem shared_bucket_keeps_deltas [DecidableEq ι] (s t : Site ι) (labels : List (Label ι))
    (hinit : s.Initial) (hrun : Runs Site.step Site.Undisturbed s labels t) :
    (∃ view, t.bucket.readView 0 = some view ∧
      ∀ delta ∈ archived t.puts, view.1.Accounts delta) ∧
    ∀ i f, (t.devices i).phase = .folded f → ∀ delta ∈ t.since i, f.merged.manifest.Accounts delta := by
  have h : t.Invariant := hrun.invariant hinit.invariant fun _ _ _ hs hguard hstep =>
    hs.step hguard hstep
  constructor
  · obtain ⟨m, hm, hall⟩ := h.sound.base
    obtain ⟨ds, hds⟩ := Option.isSome_iff_exists.mp (Bucket.logDeltas_isSome.mpr h.sound.logReads)
    have hmerges : t.bucket.MergesTo (mergeDeltas m ds).manifest := ⟨m, ds, hm, hds, rfl⟩
    refine ⟨_, (Bucket.readView_eq_some fun _ _ => Nat.zero_le _).mpr ⟨hmerges, rfl⟩, ?_⟩
    intro delta hdelta
    rcases hall delta hdelta with haccounts | hin
    · exact haccounts.merged hm.keysMatch ds
    · exact hmerges.accounts hin
  · intro i f hphase
    have htracks := h.tracks i
    unfold Device.Tracks at htracks
    rw [hphase] at htracks
    exact htracks.2.since

inductive Role where
  | reader
  | compactor
  deriving DecidableEq

def Site.empty : Site Role where
  devices := fun _ => ⟨0, .read, .idle⟩
  bucket := ⟨∅, ∅, ∅⟩
  puts := []
  since := fun _ => []

def Device.assembled (d : Device) : Option (List DeltaEntry) :=
  match d.phase with
  | .folded f => some f.merged.manifest.values
  | _ => none

def request (i : Role) : Label Role := .device i (.next 0 (some 0))

def firstDelta : DeltaEntry := .sample "a" "phone" 1 10 none

def secondDelta : DeltaEntry := .sample "b" "phone" 2 11 none

/-- The log is folded and pruned between the reader's two listings. -/
def pruneInMidRead : List (Label Role) :=
  [.logDelta "k" [firstDelta] (some 0), .device .reader (.start .read), request .reader,
    .device .compactor (.start (.compact 0 0)), request .compactor, request .compactor,
    .device .compactor (.fetch "k")] ++
  List.replicate 7 (request .compactor) ++ List.replicate 2 (request .reader)

/-- Two compactors fold from the same snapshot, and the one that has read less puts last. -/
def putOverPut : List (Label Role) :=
  [.logDelta "k" [firstDelta] (some 0), .device .reader (.start (.compact 0 0)), request .reader,
    request .reader, .device .reader (.fetch "k"), request .reader, request .reader,
    .logDelta "l" [secondDelta] (some 0), .device .compactor (.start (.compact 0 0)),
    request .compactor, request .compactor, .device .compactor (.fetch "k"),
    .device .compactor (.fetch "l")] ++
  List.replicate 8 (request .compactor) ++ [request .reader]

/-- The second delta is put behind the back of a compaction that nobody reads beside. -/
def quietCompaction : List (Label Role) :=
  [.logDelta "k" [firstDelta] (some 0), .device .compactor (.start (.compact 0 0)),
    request .compactor, request .compactor, .device .compactor (.fetch "k"), request .compactor,
    request .compactor, .logDelta "l" [secondDelta] (some 0)] ++
  List.replicate 6 (request .compactor) ++
  [.device .reader (.start .read), request .reader, request .reader, .device .reader (.fetch "l"),
    request .reader]

def Device.midRead (d : Device) : Bool :=
  match d.phase with
  | .listed _ | .snapshotHeld _ => true
  | _ => false

def Site.calm (s : Site Role) : Label Role → Bool
  | .device i e =>
      (match (s.devices i).phase with
        | .putting f _ => decide (s.bucket.newest = f.snapshot.generation)
        | _ => true) &&
      ((s.devices i).deletesDelta e == none ||
        !((s.devices .reader).midRead || (s.devices .compactor).midRead))
  | .logDelta key _ _ => decide (key ∉ s.puts.map Prod.fst)

theorem Device.MidRead.midRead {d : Device} {b : Bucket} {m : Manifest} (h : d.MidRead b m) :
    d.midRead = true := by
  obtain ⟨g, p, phase⟩ := d
  cases phase with
  | listed newest => rfl
  | snapshotHeld s => rfl
  | _ => cases h

theorem Site.calm_undisturbed (s : Site Role) (l : Label Role) (h : s.calm l = true) :
    s.Undisturbed l := by
  cases l with
  | logDelta key deltas stamp => simpa [Site.calm, Site.Undisturbed] using h
  | device i e =>
      simp only [Site.calm, Bool.and_eq_true] at h
      obtain ⟨hput, hread⟩ := h
      constructor
      · intro f generation hphase
        rw [hphase] at hput
        exact of_decide_eq_true hput
      · intro key object deltas hkey _ _ j m hmid
        have hj := hmid.midRead
        rw [hkey] at hread
        cases j <;> simp [hj] at hread

theorem Site.initial_empty : Site.empty.Initial where
  idle := fun _ => rfl
  since := fun _ => rfl
  base := ⟨∅, .inl ⟨rfl, rfl⟩⟩
  logReads := fun _ _ h => by simp [Site.empty] at h
  puts := fun _ _ => by simp [Site.empty]

theorem shared_bucket_keeps_deltas_quiet :
    ∃ t f, execute (checked Site.calm Site.step) Site.empty quietCompaction = some t ∧
      (t.devices .reader).phase = .folded f ∧ t.since .reader = [secondDelta, firstDelta] ∧
      f.merged.manifest.Accounts firstDelta ∧ f.merged.manifest.Accounts secondDelta := by
  have hexecute : (execute (checked Site.calm Site.step) Site.empty quietCompaction).map (fun t =>
      (t.since .reader, (t.devices .reader).assembled.isSome)) =
        some ([secondDelta, firstDelta], true) := by
    decide +kernel
  obtain ⟨t, ht, hpair⟩ := Option.map_eq_some_iff.mp hexecute
  obtain ⟨hsince, hassembled⟩ := Prod.mk.inj hpair
  obtain ⟨f, hf⟩ : ∃ f, (t.devices .reader).phase = .folded f := by
    unfold Device.assembled at hassembled
    split at hassembled
    · exact ⟨_, ‹_›⟩
    · cases hassembled
  have h := (shared_bucket_keeps_deltas Site.empty t quietCompaction Site.initial_empty
    (checked_runs Site.calm_undisturbed ht)).2 .reader f hf
  rw [hsince] at h
  exact ⟨t, f, ht, hf, hsince, h firstDelta (by simp), h secondDelta (by simp)⟩

theorem shared_bucket_loses_deltas :
    (execute Site.step Site.empty pruneInMidRead).map (fun t =>
      (t.since .reader, (t.devices .reader).assembled)) = some ([firstDelta], some []) ∧
    (execute Site.step Site.empty putOverPut).map (fun t =>
      (archived t.puts, (t.bucket.readView 0).map fun view => view.1.values)) =
        some ([secondDelta, firstDelta], some [firstDelta]) := by
  constructor
  · decide +kernel
  · decide +kernel

end FileMirror
