import FileMirror.CompactionShared
import FileMirror.DeleteVersusEdit

set_option autoImplicit false

namespace FileMirror

open LastWriter Transitions

def Unhidden (loser e : DeltaEntry) : Prop :=
  e.path = loser.path → winnerKey loser < winnerKey e → isConflict e loser = true

instance (loser e : DeltaEntry) : Decidable (Unhidden loser e) :=
  inferInstanceAs (Decidable (_ → _ → _))

def Manifest.Unhides (m : Manifest) (loser : DeltaEntry) : Prop :=
  ∀ e, m[loser.path]? = some e → Unhidden loser e

section Meeting

variable {loser : DeltaEntry} {o : Option DeltaEntry} {ds : List DeltaEntry}

theorem conflictsOf_loser {e : DeltaEntry} (hpath : e.path = loser.path)
    (hlt : winnerKey loser < winnerKey e) (hunhidden : Unhidden loser e) :
    ⟨e, loser⟩ ∈ conflictsOf (some loser) e ∧ ⟨e, loser⟩ ∈ conflictsOf (some e) loser := by
  have hconflict := hunhidden hpath hlt
  have hsymm : isConflict loser e = true := by rw [isConflict_comm, hconflict]
  constructor
  · simp [conflictsOf, hconflict, hlt]
  · simp [conflictsOf, hsymm, hlt.not_gt]

theorem conflictsFrom_loser (ho : ∀ e, o = some e → e.path = loser.path ∧ Unhidden loser e)
    (hds : ∀ d ∈ ds, d.path = loser.path ∧ Unhidden loser d)
    (hmem : o = some loser ∨ loser ∈ ds)
    (habove : ∃ w, keepAll o ds = some w ∧ winnerKey loser < winnerKey w) :
    ∃ e, ⟨e, loser⟩ ∈ conflictsFrom o ds := by
  induction ds generalizing o with
  | nil =>
      obtain ⟨w, hw, hlt⟩ := habove
      obtain rfl := hmem.resolve_right List.not_mem_nil
      cases hw
      exact absurd hlt (lt_irrefl _)
  | cons d ds ih =>
      obtain ⟨hpath, hunhidden⟩ := hds d (List.mem_cons_self ..)
      have hrest : ∀ e ∈ ds, e.path = loser.path ∧ Unhidden loser e :=
        fun e he => hds e (List.mem_cons_of_mem _ he)
      have later : (∀ e, some (keep winnerKey o d) = some e →
          e.path = loser.path ∧ Unhidden loser e) →
          some (keep winnerKey o d) = some loser ∨ loser ∈ ds →
          ∃ e, ⟨e, loser⟩ ∈ conflictsFrom o (d :: ds) := by
        intro hkeep hstays
        obtain ⟨e, he⟩ := ih hkeep hrest hstays habove
        exact ⟨e, by rw [conflictsFrom]; exact List.mem_append_right _ he⟩
      have hkeep : ∀ e, some (keep winnerKey o d) = some e →
          e.path = loser.path ∧ Unhidden loser e := by
        intro e he
        cases o with
        | none =>
            cases he
            exact ⟨hpath, hunhidden⟩
        | some f =>
            rw [keep] at he
            split_ifs at he
            · cases he
              exact ⟨hpath, hunhidden⟩
            · exact ho e he
      have meets : ∀ e, ⟨e, loser⟩ ∈ conflictsOf o d →
          ∃ e, ⟨e, loser⟩ ∈ conflictsFrom o (d :: ds) :=
        fun e he => ⟨e, by rw [conflictsFrom]; exact List.mem_append_left _ he⟩
      by_cases hheld : o = some loser
      · subst hheld
        by_cases hlt : winnerKey loser < winnerKey d
        · exact meets d (conflictsOf_loser hpath hlt hunhidden).1
        · exact later hkeep (.inl (by rw [keep, if_neg hlt]))
      rcases List.mem_cons.mp (hmem.resolve_left hheld) with rfl | hlater
      · cases o with
        | none => exact later hkeep (.inl rfl)
        | some f =>
            obtain ⟨hf, hfunhidden⟩ := ho f rfl
            by_cases hlt : winnerKey f < winnerKey loser
            · exact later hkeep (.inl (by rw [keep, if_pos hlt]))
            · have hne : winnerKey loser ≠ winnerKey f := fun heq =>
                hheld (congrArg some (winnerKey_separates f loser hf heq.symm))
              have habove := lt_of_le_of_ne (not_lt.mp hlt) hne
              exact meets f (conflictsOf_loser hf habove hfunhidden).2
      · exact later hkeep (.inr hlater)

theorem keepAll_eq_mergeDeltas {m : Manifest} (ds : List DeltaEntry)
    (p : String) : keepAll m[p]? (ds.filter (·.path = p)) = (mergeDeltas m ds).manifest[p]? := by
  have hfold : ∀ r : MergeResult, (ds.foldl mergeStep r).manifest[p]? =
      keepAll r.manifest[p]? (ds.filter (·.path = p)) := by
    induction ds with
    | nil => exact fun _ => rfl
    | cons d ds ih =>
        intro r
        rw [List.foldl_cons, ih, mergeStep_manifest]
        by_cases hp : d.path = p <;> simp [hp, keepAll]
  exact (hfold ⟨m, [], maxLamport m⟩).symm

/-- A merge that reads the loser, in the snapshot or in the log, beside an entry above it reports
the conflict when nothing above the loser hides it. -/
theorem mergeDeltas_reports {m : Manifest} (h : m.KeysMatch) (hm : m.Unhides loser)
    (hds : ∀ d ∈ ds, Unhidden loser d) (hmem : m[loser.path]? = some loser ∨ loser ∈ ds)
    (habove : ∃ w, (mergeDeltas m ds).manifest[loser.path]? = some w ∧
      winnerKey loser < winnerKey w) :
    ∃ c ∈ (mergeDeltas m ds).conflicts, c.loser = loser := by
  have hmeets : ∃ e, ⟨e, loser⟩ ∈ conflictsFrom m[loser.path]?
      (ds.filter (·.path = loser.path)) := by
    apply conflictsFrom_loser
    · exact fun e he => ⟨h _ _ he, hm e he⟩
    · intro d hd
      rw [List.mem_filter] at hd
      exact ⟨of_decide_eq_true hd.2, hds d hd.1⟩
    · exact hmem.imp_right fun hd => List.mem_filter.mpr ⟨hd, by simp⟩
    · rw [keepAll_eq_mergeDeltas]
      exact habove
  obtain ⟨e, he⟩ := hmeets
  rw [← mergeDeltas_conflicts_of_path h] at he
  exact ⟨_, (List.mem_filter.mp he).1, rfl⟩

end Meeting

variable {ι : Type} {loser : DeltaEntry}

def Device.putsManifest (d : Device) : Event → Option Manifest
  | .next _ _ =>
      match d.phase with
      | .putting f _ => some f.merged.manifest
      | _ => none
  | _ => none

def Bucket.InSight (b : Bucket) (loser : DeltaEntry) (m : Manifest) : Prop :=
  b.InLog loser ∨ m[loser.path]? = some loser

/-- Once the loser is put, a snapshot that has something else in its place is put only while it is
in the log, and its delta goes only while the snapshots that anyone reads by have it as the version
of its path. Nothing is logged that would hide it. -/
def Site.KeepsInSight (loser : DeltaEntry) (s : Site ι) : Label ι → Prop
  | .device i e => s.Undisturbed (.device i e) ∧ (loser ∈ archived s.puts →
      (∀ m, (s.devices i).putsManifest e = some m → s.bucket.InSight loser m) ∧
      ∀ key object deltas, (s.devices i).deletesDelta e = some key →
        s.bucket.log[key]? = some object → object.payload = some deltas → loser ∈ deltas →
        (∀ m, s.bucket.Base m → m[loser.path]? = some loser) ∧
        ∀ j m, (s.devices j).MidRead s.bucket m → m[loser.path]? = some loser)
  | .logDelta key deltas stamp => s.Undisturbed (.logDelta key deltas stamp) ∧
      ∀ d ∈ deltas, Unhidden loser d

structure Folded.Meets (f : Folded) (since : List DeltaEntry) (loser : DeltaEntry) : Prop where
  keysMatch : f.snapshot.manifest.KeysMatch
  snapshot : f.snapshot.manifest.Unhides loser
  merged : ∃ deltas, f.merged = mergeDeltas f.snapshot.manifest deltas ∧
    (∀ d ∈ deltas, Unhidden loser d) ∧
    (loser ∈ since → f.snapshot.manifest[loser.path]? = some loser ∨ loser ∈ deltas)

def Device.Sights (d : Device) (b : Bucket) (puts : List (String × List DeltaEntry))
    (since : List DeltaEntry) (loser : DeltaEntry) : Prop :=
  match d.phase with
  | .listed newest => ∀ m, b.Opens (newest.map Prod.fst) m → loser ∈ since → b.InSight loser m
  | .snapshotHeld s => s.manifest.Unhides loser ∧ (loser ∈ since → b.InSight loser s.manifest)
  | .fetching s _ pending deltas => s.manifest.Unhides loser ∧ (∀ d ∈ deltas, Unhidden loser d) ∧
      (loser ∈ since → s.manifest[loser.path]? = some loser ∨ loser ∈ deltas ∨
        ∃ key ∈ pending, ∃ ds, (key, ds) ∈ puts ∧ loser ∈ ds)
  | .folded f => f.Meets since loser
  | .putting f _ => f.merged.manifest.Unhides loser
  | _ => True

structure Bucket.Sights (b : Bucket) (puts : List (String × List DeltaEntry))
    (loser : DeltaEntry) : Prop where
  archive : ∀ d ∈ archived puts, Unhidden loser d
  snapshots : ∀ (g : ℕ) (object : SnapshotObject) (m : Manifest), b.snapshots[g]? = some object →
    object.open? g = some m → m.Unhides loser
  base : loser ∈ archived puts → ∀ m, b.Base m → b.InSight loser m

section Frame

variable {b b' : Bucket} {puts : List (String × List DeltaEntry)} {since : List DeltaEntry}
  {f : Folded} {d d' : Device} {e : Event} {m : Manifest}

theorem Manifest.Unhides.merged (hkeys : m.KeysMatch) (h : m.Unhides loser) {ds : List DeltaEntry}
    (hds : ∀ d ∈ ds, Unhidden loser d) : (mergeDeltas m ds).manifest.Unhides loser := by
  intro e he
  rcases mergeDeltas_mem hkeys he with he | ⟨-, he⟩
  · exact h e he
  · exact hds e he

theorem Device.Sights.mono {puts' : List (String × List DeltaEntry)}
    (h : d.Sights b puts since loser) (htracks : d.Tracks b puts since)
    (he : Evolves b b' puts puts')
    (hlog : b.InLog loser → b'.InLog loser ∨ ∀ m, d.MidRead b m → m[loser.path]? = some loser) :
    d.Sights b' puts' since loser := by
  obtain ⟨g, p, phase⟩ := d
  cases phase with
  | listed newest =>
      intro m hm hsince
      have hopens := hm.back he htracks.1
      rcases h m hopens hsince with hin | hat
      · exact (hlog hin).imp_right fun hread => hread m hopens
      · exact .inr hat
  | snapshotHeld s =>
      refine ⟨h.1, fun hsince => ?_⟩
      rcases h.2 hsince with hin | hat
      · exact (hlog hin).imp_right fun hread => hread s.manifest rfl
      · exact .inr hat
  | fetching s metas pending deltas =>
      refine ⟨h.1, h.2.1, fun hsince => (h.2.2 hsince).imp_right (.imp_right ?_)⟩
      rintro ⟨key, hkey, ds, hds, hmem⟩
      exact ⟨key, hkey, ds, he.kept hds, hmem⟩
  | folded f => exact h
  | putting f generation => exact h
  | _ => trivial

theorem Device.Sights.moved (h : d.Sights b puts since loser) (hbucket : b.Sights puts loser)
    (htracks : d.Tracks b puts since) (hsound : b.Sound puts) (hmoves : Moves b d e d' b') :
    d'.Sights b' puts (sinceOf puts since e) loser := by
  cases hmoves with
  | start =>
      intro m hm hsince
      rw [listNewest_fst] at hm
      exact hbucket.base hsince m (Bucket.base_iff_opens.mpr hm)
  | empty => exact ⟨fun e he => absurd he (by simp), h ∅ rfl⟩
  | opened hopen =>
      obtain ⟨-, -, object, hobject, hm⟩ := openNewest_eq_some.mp hopen
      exact ⟨hbucket.snapshots _ object _ hobject hm, h _ ⟨object, hobject, hm⟩⟩
  | listLog =>
      refine ⟨h.1, fun d hd => absurd hd List.not_mem_nil, fun hsince => ?_⟩
      rcases h.2 hsince with hin | hat
      · exact .inr (.inr (hsound.inLog hin))
      · exact .inl hat
  | @fetch g p s metas pending deltas read key hkey hread =>
      obtain ⟨hsnapshot, hdeltas, hloser⟩ := h
      obtain ⟨object, hobject, hpayload⟩ := Option.bind_eq_some_iff.mp hread
      obtain ⟨ds, hds, hput⟩ := hsound.logged key object hobject
      obtain rfl : ds = read := hsound.fetched hread hput
      refine ⟨hsnapshot, fun d hd => ?_, fun hsince => ?_⟩
      · rcases List.mem_append.mp hd with hd | hd
        · exact hdeltas d hd
        · exact hbucket.archive d (mem_archived.mpr ⟨key, ds, hput, hd⟩)
      · rcases hloser hsince with hat | hread' | ⟨k, hk, ds', hds', hmem⟩
        · exact .inl hat
        · exact .inr (.inl (List.mem_append_left _ hread'))
        · by_cases heq : k = key
          · subst heq
            rw [hsound.fetched hread hds'] at hmem
            exact .inr (.inl (List.mem_append_right _ hmem))
          · exact .inr (.inr ⟨k, (List.mem_erase_of_ne heq).mpr hk, ds', hds', hmem⟩)
  | @merge g p now stamp s metas deltas =>
      obtain ⟨hsnapshot, hdeltas, hloser⟩ := h
      refine ⟨htracks.1.keysMatch, hsnapshot, deltas, rfl, hdeltas, fun hsince => ?_⟩
      exact (hloser hsince).imp_right fun h =>
        h.resolve_right fun ⟨_, hkey, _⟩ => absurd hkey List.not_mem_nil
  | choose hbound =>
      obtain ⟨deltas, hmerged, hdeltas, -⟩ := h.merged
      change Manifest.Unhides _ loser
      rw [hmerged]
      exact h.snapshot.merged h.keysMatch hdeltas
  | _ => trivial

theorem Bucket.Sights.still (h : b.Sights puts loser)
    (hb : b'.snapshots = b.snapshots ∧ b'.log = b.log) : b'.Sights puts loser := by
  obtain ⟨hsnapshots, hlog⟩ := hb
  cases b
  cases b'
  cases hsnapshots
  cases hlog
  exact ⟨h.archive, h.snapshots, h.base⟩

theorem Bucket.Sights.put {generation : ℕ} (stamp : Option ℕ) (h : b.Sights puts loser)
    (hcomplete : f.Complete puts since) (hunhides : f.merged.manifest.Unhides loser)
    (hlt : ∀ g, b.newest = some g → g < generation)
    (hguard : loser ∈ archived puts → b.InSight loser f.merged.manifest) :
    (b.putSnapshot generation f.merged.manifest stamp).Sights puts loser where
  archive := h.archive
  snapshots := by
    intro g object m hobject hopen
    simp only [putSnapshot, Std.ExtTreeMap.getElem?_insert, Std.compare_eq_iff_eq] at hobject
    split_ifs at hobject with hg
    · cases hobject
      simp only [SnapshotObject.open?, hg, if_true, Option.map_some,
        Manifest.ofEntries_values hcomplete.keysMatch, Option.some.injEq] at hopen
      exact hopen ▸ hunhides
    · exact h.snapshots g object m hobject hopen
  base := by
    intro hput m hm
    rw [hm.unique (base_putSnapshot stamp hcomplete.keysMatch hlt)]
    exact hguard hput

theorem Bucket.Sights.eraseDelta {key : String} (h : b.Sights puts loser)
    (hguard : loser ∈ archived puts → ∀ object deltas, b.log[key]? = some object →
      object.payload = some deltas → loser ∈ deltas → ∀ m, b.Base m → m[loser.path]? = some loser) :
    ({ b with log := b.log.erase key } : Bucket).Sights puts loser where
  archive := h.archive
  snapshots := h.snapshots
  base := by
    intro hput m hm
    rcases h.base hput m hm with ⟨k, object, deltas, hobject, hpayload, hmem⟩ | hat
    · by_cases hk : key = k
      · subst hk
        exact .inr (hguard hput object deltas hobject hpayload hmem m hm)
      · refine .inl ⟨k, object, deltas, ?_, hpayload, hmem⟩
        rw [StringMap.getElem?_erase, if_neg hk]
        exact hobject
    · exact .inr hat

theorem Bucket.Sights.eraseSnapshot {g n : ℕ} (h : b.Sights puts loser) (hsound : b.Sound puts)
    (hn : b.newest = some n) (hlt : g < n) :
    ({ b with snapshots := b.snapshots.erase g } : Bucket).Sights puts loser where
  archive := h.archive
  snapshots := by
    intro k object m hobject hopen
    simp only [Std.ExtTreeMap.getElem?_erase] at hobject
    split_ifs at hobject
    exact h.snapshots k object m hobject hopen
  base := by
    intro hput m hm
    obtain ⟨m', hm', -⟩ := hsound.base
    have hkeeps : ({ b with snapshots := b.snapshots.erase g } : Bucket).Base m' := by
      refine base_eraseSnapshot (fun n' hn' => ?_) hm'
      rw [hn, Option.some.injEq] at hn'
      omega
    rw [hm.unique hkeeps]
    exact h.base hput m' hm'

theorem Bucket.Sights.moved (h : b.Sights puts loser) (hsound : b.Sound puts)
    (htracks : d.Tracks b puts since) (hsights : d.Sights b puts since loser)
    (hmoves : Moves b d e d' b')
    (hnewest : ∀ f generation, d.phase = .putting f generation → b.newest = f.snapshot.generation)
    (hputs : loser ∈ archived puts → ∀ m, d.putsManifest e = some m → b.InSight loser m)
    (hdeletes : loser ∈ archived puts → ∀ key object deltas, d.deletesDelta e = some key →
      b.log[key]? = some object → object.payload = some deltas → loser ∈ deltas →
      ∀ m, b.Base m → m[loser.path]? = some loser) :
    b'.Sights puts loser := by
  cases hmoves with
  | @put g p now stamp f generation =>
      obtain ⟨hremembers, hcomplete, hlt⟩ := htracks
      refine h.put stamp hcomplete hsights (fun g hg => ?_) fun hput => hputs hput _ rfl
      exact hlt g (hnewest f generation rfl ▸ hg)
  | pruneDelta hold =>
      refine h.eraseDelta fun hput object deltas => hdeletes hput _ object deltas ?_
      simp [Device.deletesDelta, hold]
  | dropSnapshot hgeneration =>
      obtain ⟨-, hincludes, -⟩ := htracks
      obtain ⟨n, hn, hlt⟩ := hincludes.newest
      exact h.eraseSnapshot hsound hn (hlt _ hgeneration)
  | _ => exact h.still ⟨rfl, rfl⟩

end Frame

namespace Site

structure Sights (s : Site ι) (loser : DeltaEntry) : Prop where
  invariant : s.Invariant
  bucket : s.bucket.Sights s.puts loser
  devices : ∀ i, (s.devices i).Sights s.bucket s.puts (s.since i) loser

theorem Sights.device [DecidableEq ι] {s : Site ι} {i : ι} {e : Event} {d : Device} {b : Bucket}
    (h : s.Sights loser) (hguard : s.KeepsInSight loser (.device i e))
    (hstep : (s.devices i).step s.bucket e = some (d, b)) :
    Sights { s with devices := Function.update s.devices i d, bucket := b,
                    since := s.sinceAfter i e } loser := by
  obtain ⟨hundisturbed, hkeeps⟩ := hguard
  have hmoves := Device.step_moves hstep
  have hmoved := (h.invariant.tracks i).moved h.invariant.sound hmoves hundisturbed.1
  refine ⟨h.invariant.device hundisturbed hstep, ?_, fun j => ?_⟩
  · refine h.bucket.moved h.invariant.sound (h.invariant.tracks i) (h.devices i) hmoves
      hundisturbed.1 (fun hput => (hkeeps hput).1) ?_
    intro hput key object deltas hkey hobject hpayload hmem
    exact ((hkeeps hput).2 key object deltas hkey hobject hpayload hmem).1
  · change (Function.update s.devices i d j).Sights b s.puts (s.sinceAfter i e j) loser
    by_cases hj : j = i
    · subst hj
      rw [Function.update_self, sinceAfter_self]
      exact (h.devices j).moved h.bucket (h.invariant.tracks j) h.invariant.sound hmoves
    · rw [Function.update_of_ne hj, sinceAfter_of_ne s e hj]
      refine (h.devices j).mono (h.invariant.tracks j) hmoved.evolves fun hin => ?_
      refine (hmoved.log loser hin).imp_right ?_
      rintro ⟨key, object, deltas, hkey, hobject, hpayload, hmem⟩
      obtain ⟨ds, hds, hput⟩ := h.invariant.sound.logged key object hobject
      rw [hpayload, Option.some.injEq] at hds
      subst hds
      have harchived : loser ∈ archived s.puts := mem_archived.mpr ⟨key, deltas, hput, hmem⟩
      exact ((hkeeps harchived).2 key object deltas hkey hobject hpayload hmem).2 j

theorem Sights.logDelta {s : Site ι} {key : String} {deltas : List DeltaEntry}
    {stamp : Option ℕ} (h : s.Sights loser) (hfresh : key ∉ s.puts.map Prod.fst)
    (hdeltas : ∀ d ∈ deltas, Unhidden loser d) :
    Sights { s with bucket := s.bucket.logDelta key deltas stamp
                    puts := (key, deltas) :: s.puts } loser := by
  have hsound := h.invariant.sound
  have hlogged : ∀ delta, s.bucket.InLog delta →
      (s.bucket.logDelta key deltas stamp).InLog delta :=
    fun delta hdelta => hsound.inLog_logDelta hfresh (.inr hdelta)
  refine ⟨h.invariant.logDelta hfresh, ⟨fun d hd => ?_, h.bucket.snapshots, ?_⟩, fun j => ?_⟩
  · rw [archived, List.flatMap_cons, List.mem_append] at hd
    exact hd.elim (hdeltas d) (h.bucket.archive d)
  · intro hput m hm
    rw [archived, List.flatMap_cons, List.mem_append] at hput
    rcases hput with hnew | hold
    · exact .inl (hsound.inLog_logDelta hfresh (.inl hnew))
    · exact (h.bucket.base hold m hm).imp_left (hlogged loser)
  · refine (h.devices j).mono (h.invariant.tracks j) ?_ fun hin => .inl (hlogged loser hin)
    refine .of_snapshots rfl (List.subset_cons_self ..) fun k ds hds hk => ?_
    rcases List.mem_cons.mp hds with heq | hds
    · cases heq
      exact absurd hk hfresh
    · exact hds

theorem Sights.step [DecidableEq ι] {s t : Site ι} {l : Label ι} (h : s.Sights loser)
    (hguard : s.KeepsInSight loser l) (hstep : s.step l = some t) : t.Sights loser := by
  cases l with
  | device i e =>
      simp only [Site.step] at hstep
      cases hdevice : (s.devices i).step s.bucket e with
      | none => simp [hdevice] at hstep
      | some moved =>
          rw [hdevice] at hstep
          cases hstep
          exact h.device hguard hdevice
  | logDelta key deltas stamp =>
      cases hstep
      exact h.logDelta hguard.1 hguard.2

end Site

end FileMirror
