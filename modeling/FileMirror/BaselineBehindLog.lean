import FileMirror.DeleteVersusEdit
import FileMirror.PassEffects

set_option autoImplicit false

namespace FileMirror

open WriteAhead

namespace World

def logged (w : World) : List DeltaEntry := w.log.toList.flatMap Prod.snd

def ownSince (w : World) (lamport : ℕ) : List DeltaEntry :=
  w.logged.filter fun d => d.deviceId = w.device.deviceId ∧ lamport < d.lamport

/-- As `log_delta`'s callers leave it: an object's name carries the lamport of its deltas. -/
def Keyed (w : World) : Prop :=
  ∀ key deltas, w.log[key]? = some deltas →
    ∃ lamport deviceId seq, key = deltaKey lamport deviceId seq ∧ ∃ d ∈ deltas, lamport ≤ d.lamport

variable {w t : World} {now : String → ℕ} {es : List Effect} {d : DeltaEntry}

theorem mem_logged : d ∈ w.logged ↔ ∃ (key : String) (deltas : List DeltaEntry),
    w.log[key]? = some deltas ∧ d ∈ deltas := by
  simp only [logged, List.mem_flatMap, Prod.exists,
    Std.ExtTreeMap.mem_toList_iff_getElem?_eq_some]

theorem run_deviceId (w : World) (e : Effect) :
    (w.run now e).device.deviceId = w.device.deviceId := by
  have hupdate : ∀ (s : DeviceState) (path : String) (f : FileRecord → FileRecord),
      (s.updateRow path f).deviceId = s.deviceId := by
    intro s path f
    unfold DeviceState.updateRow
    split <;> rfl
  cases e with
  | recordHydrated path => exact hupdate _ _ _
  | _ => rfl

theorem runAll_deviceId (w : World) (es : List Effect) :
    (es.foldl (World.run now) w).device.deviceId = w.device.deviceId := by
  induction es generalizing w with
  | nil => rfl
  | cons e es ih => rw [List.foldl_cons, ih, run_deviceId]

theorem mem_logged_insert {key : String} {deltas : List DeltaEntry} (hfresh : w.log[key]? = none) :
    d ∈ ({ w with log := w.log.insert key deltas } : World).logged ↔ d ∈ w.logged ∨ d ∈ deltas := by
  simp only [mem_logged]
  constructor
  · rintro ⟨k, ds, hk, hd⟩
    rw [StringMap.getElem?_insert] at hk
    split_ifs at hk
    · cases hk
      exact .inr hd
    · exact .inl ⟨k, ds, hk, hd⟩
  · rintro (⟨k, ds, hk, hd⟩ | hd)
    · have hne : key ≠ k := fun heq => by
        rw [heq, hk] at hfresh
        cases hfresh
      exact ⟨k, ds, by rw [StringMap.getElem?_insert, if_neg hne, hk], hd⟩
    · exact ⟨key, deltas, by rw [StringMap.getElem?_insert, if_pos rfl], hd⟩

theorem mem_logged_run (hnodup : (es.filterMap Effect.logKey).Nodup)
    (hfresh : ∀ key ∈ es.filterMap Effect.logKey,
      w.log[deltaKey key.1 w.device.deviceId key.2]? = none) :
    d ∈ (es.foldl (World.run now) w).logged ↔ d ∈ w.logged ∨ d ∈ written Effect.writes es := by
  induction es generalizing w with
  | nil => simp [written]
  | cons e es ih =>
      have hwritten : written Effect.writes (e :: es) = e.writes ++ written Effect.writes es :=
        List.flatMap_cons
      rw [List.foldl_cons, hwritten, List.mem_append, ← or_assoc]
      cases hkey : e.logKey with
      | none =>
          have hlog : (w.run now e).log = w.log := by
            cases e with
            | logDelta lamport seq deltas => cases hkey
            | _ => rfl
          have hwrites : e.writes = [] := by
            cases e with
            | logDelta lamport seq deltas => cases hkey
            | _ => rfl
          rw [List.filterMap_cons_none hkey] at hnodup hfresh
          rw [ih hnodup (by rw [run_deviceId, hlog]; exact hfresh), hwrites]
          simp [World.logged, hlog]
      | some key =>
          obtain ⟨lamport, seq, deltas, rfl⟩ : ∃ lamport seq deltas, e = .logDelta lamport seq deltas := by
            cases e with
            | logDelta lamport seq deltas => exact ⟨lamport, seq, deltas, rfl⟩
            | _ => cases hkey
          rw [List.filterMap_cons_some hkey] at hnodup hfresh
          cases hkey
          obtain ⟨hnot, hnodup⟩ := List.nodup_cons.mp hnodup
          have hnew := hfresh (lamport, seq) (List.mem_cons_self ..)
          have hrest : ∀ k ∈ es.filterMap Effect.logKey,
              (w.run now (.logDelta lamport seq deltas)).log[deltaKey k.1 w.device.deviceId k.2]? = none := by
            intro k hk
            have hne : deltaKey lamport w.device.deviceId seq ≠ deltaKey k.1 w.device.deviceId k.2 := by
              intro heq
              obtain ⟨hlamport, -, hseq⟩ := deltaKey_injective heq
              exact hnot (by rw [hlamport, hseq]; exact hk)
            change (w.log.insert _ _)[_]? = none
            rw [StringMap.getElem?_insert, if_neg hne]
            exact hfresh k (List.mem_cons_of_mem _ hk)
          rw [ih hnodup hrest]
          exact or_congr (mem_logged_insert hnew) Iff.rfl

end World

/-- The effect sets the baseline's version of `path` to `hash`. -/
def Effect.Confirms (e : Effect) (path : String) (hash : ContentHash) : Prop :=
  (∃ size mtimeNs, e = .confirmSync path size mtimeNs hash) ∨
    ∃ size, e = .confirmPlaceholder path size hash

theorem Effect.Confirms.needs {e : Effect} {path : String} {hash : ContentHash} {plan : Plan}
    {manifest : Manifest} {events : PassEvents} {logged : List DeltaEntry}
    (h : e.Confirms path hash) (hneeds : e.needs plan manifest events logged) :
    Fetched plan manifest events path hash ∨ ∃ d ∈ logged, d.IsVersion path hash := by
  rcases h with ⟨size, mtimeNs, rfl⟩ | ⟨size, rfl⟩
  · exact hneeds
  · exact hneeds

namespace World

variable {w : World} {now : String → ℕ} {path : String} {hash : ContentHash}

theorem lastSynced_run {e : Effect} (h : (w.run now e).device.files.lastSynced path = some hash) :
    w.device.files.lastSynced path = some hash ∨ e.Confirms path hash := by
  cases e with
  | confirmSync p size mtimeNs hash' =>
      simp only [World.run, DeviceState.confirmSync, Baseline.lastSynced,
        StringMap.getElem?_insert] at h
      split_ifs at h with hp
      · subst hp
        simp only [Option.bind_some, Option.some.injEq] at h
        exact .inr (.inl ⟨size, mtimeNs, by rw [h]⟩)
      · exact .inl h
  | confirmPlaceholder p size hash' =>
      simp only [World.run, DeviceState.confirmPlaceholder, Baseline.lastSynced,
        StringMap.getElem?_insert] at h
      split_ifs at h with hp
      · subst hp
        simp only [Option.bind_some, Option.some.injEq] at h
        exact .inr (.inr ⟨size, by rw [h]⟩)
      · exact .inl h
  | recordHydrated p =>
      simp only [World.run, DeviceState.recordHydrated, DeviceState.updateRow] at h
      cases hrow : w.device.files[p]? with
      | none =>
          rw [hrow] at h
          exact .inl h
      | some record =>
          rw [hrow] at h
          simp only [Baseline.lastSynced, StringMap.getElem?_insert] at h
          split_ifs at h with hp
          · subst hp
            exact .inl (by rw [Baseline.lastSynced, hrow]; exact h)
          · exact .inl h
  | removeRow p =>
      simp only [World.run, DeviceState.remove, Baseline.lastSynced, StringMap.getElem?_erase] at h
      split_ifs at h with hp
      · cases h
      · exact .inl h
  | _ => exact .inl h

theorem lastSynced_runAll {es : List Effect}
    (h : (es.foldl (World.run now) w).device.files.lastSynced path = some hash) :
    w.device.files.lastSynced path = some hash ∨ ∃ e ∈ es, e.Confirms path hash := by
  induction es generalizing w with
  | nil => exact .inl h
  | cons e es ih =>
      rcases ih h with h | ⟨f, hf, hconfirms⟩
      · rcases lastSynced_run h with h | h
        · exact .inl h
        · exact .inr ⟨e, List.mem_cons_self .., h⟩
      · exact .inr ⟨f, List.mem_cons_of_mem _ hf, hconfirms⟩

theorem row_run {e : Effect} (h : (w.run now e).device.files[path]? = none) :
    w.device.files[path]? = none ∨ e = .removeRow path := by
  cases e with
  | confirmSync p size mtimeNs hash' =>
      simp only [World.run, DeviceState.confirmSync, StringMap.getElem?_insert] at h
      split_ifs at h
      exact .inl h
  | confirmPlaceholder p size hash' =>
      simp only [World.run, DeviceState.confirmPlaceholder, StringMap.getElem?_insert] at h
      split_ifs at h
      exact .inl h
  | recordHydrated p =>
      simp only [World.run, DeviceState.recordHydrated, DeviceState.updateRow] at h
      cases hrow : w.device.files[p]? with
      | none =>
          rw [hrow] at h
          exact .inl h
      | some record =>
          rw [hrow] at h
          simp only [StringMap.getElem?_insert] at h
          split_ifs at h
          exact .inl h
  | removeRow p =>
      simp only [World.run, DeviceState.remove, StringMap.getElem?_erase] at h
      split_ifs at h with hp
      · exact .inr (by rw [hp])
      · exact .inl h
  | _ => exact .inl h

theorem row_runAll {es : List Effect}
    (h : (es.foldl (World.run now) w).device.files[path]? = none) :
    w.device.files[path]? = none ∨ .removeRow path ∈ es := by
  induction es generalizing w with
  | nil => exact .inl h
  | cons e es ih =>
      rcases ih h with h | h
      · refine (row_run h).imp_right fun he => ?_
        rw [he]
        exact List.mem_cons_self ..
      · exact .inr (List.mem_cons_of_mem _ h)

end World

theorem PassSpec.take {plan : Plan} {manifest : Manifest} {events : PassEvents} {least : ℕ}
    {deviceId : String} {es : List Effect}
    (h : PassSpec plan manifest events least deviceId es) (n : ℕ) :
    PassSpec plan manifest events least deviceId (es.take n) := by
  have hsublist : ((es.take n).filterMap Effect.logKey).Sublist (es.filterMap Effect.logKey) :=
    (List.take_sublist n es).filterMap _
  obtain ⟨known, hsub, hknown⟩ := h.logged
  refine ⟨h.justified.take n, h.keys.sublist hsublist,
    fun key hkey => h.keys_ge key (hsublist.subset hkey), known, fun d hd => hsub ?_, hknown⟩
  obtain ⟨e, he, hmem⟩ := List.mem_flatMap.mp hd
  exact List.mem_flatMap.mpr ⟨e, List.mem_of_mem_take he, hmem⟩

theorem PassSpec.needs {plan : Plan} {manifest : Manifest} {events : PassEvents} {least : ℕ}
    {deviceId : String} {es : List Effect} {e : Effect}
    (h : PassSpec plan manifest events least deviceId es) (he : e ∈ es) :
    e.needs plan manifest events (written Effect.writes es) := by
  have hneeds : Effect.needs plan manifest events ([] ++ written Effect.writes es) e := by
    refine Justified.needs_of_mem ?_ h.justified he
    exact Effect.needs_mono
  exact hneeds

section Cut

variable {snapshot : Manifest} {w : World} {plan : Plan} {events : PassEvents} {n : ℕ}

def performed (snapshot : Manifest) (w : World) (plan : Plan) (events : PassEvents) (n : ℕ) :
    List Effect :=
  let merged := mergeDeltas snapshot w.logged
  (passEffects plan merged.manifest merged.remoteLamport w.device events).take n

def World.after (snapshot : Manifest) (w : World) (plan : Plan) (events : PassEvents) (n : ℕ) :
    World :=
  (performed snapshot w plan events n).foldl (World.run events.unix) w

def passLamport (snapshot : Manifest) (w : World) : ℕ :=
  nextLamport (mergeDeltas snapshot w.logged).remoteLamport w.device.lamport

theorem performed_spec (plan : Plan) (events : PassEvents) (n : ℕ)
    (hclock : passLamport snapshot w ≤ i64Max) :
    PassSpec plan (mergeDeltas snapshot w.logged).manifest events (passLamport snapshot w)
      w.device.deviceId (performed snapshot w plan events n) :=
  (passEffects_spec _ _ hclock).take n

theorem lamport_lt_passLamport {d : DeltaEntry} (hd : d ∈ w.logged) :
    d.lamport < passLamport snapshot w := by
  have hle := (mergeDeltas_remoteLamport_le.mp
    (le_refl (mergeDeltas snapshot w.logged).remoteLamport)).2 d hd
  unfold passLamport nextLamport
  omega

theorem entry_lt_passLamport {e : DeltaEntry} (he : e ∈ snapshot.values) :
    e.lamport < passLamport snapshot w := by
  have hle := (mergeDeltas_remoteLamport_le.mp
    (le_refl (mergeDeltas snapshot w.logged).remoteLamport)).1 e he
  unfold passLamport nextLamport
  omega

theorem mem_logged_after (hkeyed : w.Keyed) (hclock : passLamport snapshot w ≤ i64Max)
    {d : DeltaEntry} : d ∈ (w.after snapshot plan events n).logged ↔
      d ∈ w.logged ∨ d ∈ written Effect.writes (performed snapshot w plan events n) := by
  have hspec := performed_spec plan events n hclock
  refine World.mem_logged_run hspec.keys fun key hkey => ?_
  cases hlog : w.log[deltaKey key.1 w.device.deviceId key.2]? with
  | none => rfl
  | some deltas =>
      obtain ⟨lamport, deviceId, seq, heq, d, hd, hle⟩ := hkeyed _ _ hlog
      obtain ⟨hlamport, -, -⟩ := deltaKey_injective heq
      have hlt : d.lamport < passLamport snapshot w :=
        lamport_lt_passLamport (World.mem_logged.mpr ⟨_, _, hlog, hd⟩)
      have hge := hspec.keys_ge key hkey
      omega

theorem written_ownSince (hkeyed : w.Keyed) (hclock : passLamport snapshot w ≤ i64Max)
    {d : DeltaEntry} (hd : d ∈ written Effect.writes (performed snapshot w plan events n)) :
    d ∈ (w.after snapshot plan events n).ownSince (mergeDeltas snapshot w.logged).remoteLamport := by
  obtain ⟨known, hsub, hknown⟩ := (performed_spec plan events n hclock).logged
  have hlogged := hknown d (hsub hd)
  have hlamport : (mergeDeltas snapshot w.logged).remoteLamport < d.lamport := by
    have hle := hlogged.lamport_le
    unfold passLamport nextLamport at hle
    omega
  have hdevice : (w.after snapshot plan events n).device.deviceId = w.device.deviceId :=
    World.runAll_deviceId w _
  simp only [World.ownSince, List.mem_filter, decide_eq_true_eq, hdevice]
  exact ⟨(mem_logged_after hkeyed hclock).mpr (.inr hd), hlogged.device, hlamport⟩

theorem reread_eq (hsnapshot : snapshot.KeysMatch) (hkeyed : w.Keyed)
    (hclock : passLamport snapshot w ≤ i64Max) {path : String}
    (hpath : ∀ d ∈ written Effect.writes (performed snapshot w plan events n), d.path ≠ path) :
    (mergeDeltas snapshot (w.after snapshot plan events n).logged).manifest[path]? =
      (mergeDeltas snapshot w.logged).manifest[path]? := by
  have hcandidates : ∀ c, c ∈ candidates snapshot (w.after snapshot plan events n).logged path ↔
      c ∈ candidates snapshot w.logged path := by
    intro c
    rw [mem_candidates, mem_candidates, mem_logged_after hkeyed hclock]
    refine or_congr Iff.rfl (and_congr_right fun hc => or_iff_left fun hwritten => ?_)
    exact hpath c hwritten hc
  refine Option.ext fun e => ?_
  rw [mergeDeltas_eq_max hsnapshot, mergeDeltas_eq_max hsnapshot]
  simp only [hcandidates]

theorem reread_live (hsnapshot : snapshot.KeysMatch) (hkeyed : w.Keyed)
    (hclock : passLamport snapshot w ≤ i64Max) {path : String}
    (hplan : ⟨path, .deleteRemote⟩ ∉ plan.actions)
    (hpath : ∃ d ∈ written Effect.writes (performed snapshot w plan events n), d.path = path) :
    (mergeDeltas snapshot (w.after snapshot plan events n).logged).manifest.liveHash path ≠ none := by
  obtain ⟨d, hd, rfl⟩ := hpath
  obtain ⟨known, hsub, hknown⟩ := (performed_spec plan events n hclock).logged
  obtain ⟨e, he, hle⟩ :=
    Manifest.accounts_mergeDeltas hsnapshot ((mem_logged_after hkeyed hclock).mpr (.inr hd))
  have hnew : passLamport snapshot w ≤ e.lamport :=
    (hknown d (hsub hd)).lamport_le.trans (lamport_le_of_winnerKey_le hle)
  have hwritten : e ∈ written Effect.writes (performed snapshot w plan events n) ∧
      e.path = d.path := by
    rcases mergeDeltas_mem hsnapshot he with hold | ⟨hpath, hmem⟩
    · have hlt : e.lamport < passLamport snapshot w :=
        entry_lt_passLamport (Manifest.mem_values.mpr ⟨_, hold⟩)
      omega
    · rcases (mem_logged_after hkeyed hclock).mp hmem with hmem | hmem
      · have hlt : e.lamport < passLamport snapshot w := lamport_lt_passLamport hmem
        omega
      · exact ⟨hmem, hpath⟩
  have hlive : e.deleted = false := by
    by_contra hdeleted
    rw [Bool.not_eq_false] at hdeleted
    have htomb := (hknown e (hsub hwritten.1)).tombstone hdeleted
    rw [hwritten.2] at htomb
    exact hplan htomb
  simp [Manifest.liveHash, he, hlive]

end Cut

def PassEvents.Fits (events : PassEvents) (plan : Plan) : Prop :=
  ∀ action r, (action, .downloaded r) ∈ events.joined → action ∈ plan.actions ∧
    (action.kind = .download ∨ action.kind = .hydrate)

section Planned

variable {entries : List LocalEntry} {baseline : Baseline} {remote : Manifest}
  {view : ResidencyView} {path : String} {hash : ContentHash}

theorem planPath_local (hlocal : localHash entries path = some hash) :
    (planPath entries baseline remote view path).1 =
      decideAction (classify (some hash) (baseline.lastSynced path))
        (classify (remote.liveHash path) (baseline.lastSynced path)) (some hash)
        (remote.liveHash path) := by
  simp [planPath, hlocal]

theorem classify_some_ne_deleted (h : ContentHash) (base : Option ContentHash) :
    classify (some h) base ≠ .deleted := by
  cases base with
  | none => simp [classify]
  | some b =>
      simp only [classify]
      split_ifs <;> simp

theorem classify_eq_deleted {current base : Option ContentHash} :
    classify current base = .deleted ↔ current = none ∧ base ≠ none := by
  cases current with
  | none => cases base <;> simp [classify]
  | some h => simp [classify_some_ne_deleted]

theorem classify_eq_unchanged {current base : Option ContentHash} :
    classify current base = .unchanged ↔ current = base := by
  cases current <;> cases base <;> simp [classify]

theorem planPath_local_deleteLocal (hlocal : localHash entries path = some hash) :
    (planPath entries baseline remote view path).1 = some .deleteLocal ↔
      baseline.lastSynced path = some hash ∧ remote.liveHash path = none := by
  rw [planPath_local hlocal]
  have hhere := classify_some_ne_deleted hash (baseline.lastSynced path)
  constructor
  · intro h
    have hboth : classify (some hash) (baseline.lastSynced path) = .unchanged ∧
        classify (remote.liveHash path) (baseline.lastSynced path) = .deleted := by
      revert h hhere
      cases classify (some hash) (baseline.lastSynced path) <;>
        cases classify (remote.liveHash path) (baseline.lastSynced path) <;>
          simp [decideAction]
    exact ⟨(classify_eq_unchanged.mp hboth.1).symm, (classify_eq_deleted.mp hboth.2).1⟩
  · rintro ⟨hbase, hgone⟩
    simp [hbase, hgone, classify, decideAction]

theorem decideAction_kinds {here there : Change} {localHash remoteHash : Option ContentHash}
    {kind : ActionKind} (hhere : here ≠ .deleted)
    (h : decideAction here there localHash remoteHash = some kind) :
    kind = .download ∧ (there = .created ∨ there = .modified) ∨ kind = .deleteLocal ∨
      kind = .upload ∧ there = .unchanged ∨ kind = .conflict := by
  cases here with
  | deleted => exact absurd rfl hhere
  | unchanged => cases there <;> cases h <;> simp
  | _ =>
      cases there with
      | unchanged =>
          cases h
          simp
      | deleted =>
          cases h
          simp
      | _ =>
          simp only [decideAction] at h
          split_ifs at h
          cases h
          simp

theorem planPath_local_kinds {kind : ActionKind} (hlocal : localHash entries path = some hash)
    (h : (planPath entries baseline remote view path).1 = some kind) :
    kind = .download ∧ remote.liveHash path ≠ none ∨ kind = .deleteLocal ∨
      kind = .upload ∧ remote.liveHash path = baseline.lastSynced path ∨ kind = .conflict := by
  rw [planPath_local hlocal] at h
  have hkinds := decideAction_kinds (classify_some_ne_deleted hash _) h
  refine hkinds.imp (fun ⟨hkind, hthere⟩ => ⟨hkind, fun hnone => ?_⟩)
    (Or.imp_right (Or.imp_left fun ⟨hkind, hthere⟩ => ⟨hkind, classify_eq_unchanged.mp hthere⟩))
  rw [hnone] at hthere
  cases hbase : baseline.lastSynced path <;> simp [hbase, classify] at hthere

theorem decideAction_absent (base remoteHash : Option ContentHash) (there : Change) :
    decideAction (classify none base) there none remoteHash ≠ some .upload := by
  cases base <;> cases there <;> simp [classify, decideAction]

theorem placeholderAction_ne_upload (stub : StubMeta) (record : Option FileRecord) (there : Change) :
    (placeholderAction path stub record there remote view).1 ≠ some .upload := by
  unfold placeholderAction
  by_cases hmoved : stub.path = path
  · simp only [hmoved, ne_eq, not_true_eq_false, if_false]
    split <;> try split_ifs
    all_goals simp
  · simp only [hmoved, ne_eq, not_false_eq_true, if_true]
    split <;> try split_ifs
    all_goals simp

theorem planPath_upload (h : (planPath entries baseline remote view path).1 = some .upload) :
    ∃ hash, localHash entries path = some hash := by
  refine Option.ne_none_iff_exists'.mp fun hnone => ?_
  simp only [planPath, hnone, Option.isSome_none, Bool.false_eq_true, if_false] at h
  cases hstub : view.placeholders[path]? with
  | some stub =>
      rw [hstub] at h
      exact placeholderAction_ne_upload stub _ _ h
  | none =>
      simp only [hstub] at h
      by_cases hevicted : baseline[path]?.any FileRecord.isEvicted = true
      · rw [if_pos hevicted] at h
        split at h <;> cases h
      · rw [if_neg hevicted] at h
        split at h
        · split_ifs at h <;> cases h
        · exact decideAction_absent _ _ _ h

end Planned

theorem addRelocation_actions {plan : Plan} {relocation : String × DeltaEntry} {a : Action}
    (h : a ∈ (addRelocation plan relocation).actions) : a.kind = .relocate ∨ a ∈ plan.actions ∨
      a.kind = .updatePlaceholder ∧ ⟨a.path, .hydrate⟩ ∈ plan.actions := by
  simp only [addRelocation, List.mem_append, List.mem_map, List.mem_singleton] at h
  rcases h with ⟨b, hb, rfl⟩ | rfl
  · split_ifs with hhydrate
    · refine .inr (.inr ⟨rfl, ?_⟩)
      rw [← hhydrate.2]
      exact hb
    · exact .inr (.inl hb)
  · exact .inl rfl

theorem foldl_addRelocation_actions {plan : Plan} {relocations : List (String × DeltaEntry)}
    {a : Action} (h : a ∈ (relocations.foldl addRelocation plan).actions) :
    a.kind = .relocate ∨ a ∈ plan.actions ∨
      a.kind = .updatePlaceholder ∧ ⟨a.path, .hydrate⟩ ∈ plan.actions := by
  induction relocations generalizing plan with
  | nil => exact .inr (.inl h)
  | cons r relocations ih =>
      rcases ih h with hkind | hmem | ⟨hkind, hmem⟩
      · exact .inl hkind
      · exact addRelocation_actions hmem
      · rcases addRelocation_actions hmem with hrelocate | hmem | ⟨hupdate, -⟩
        · cases hrelocate
        · exact .inr (.inr ⟨hkind, hmem⟩)
        · cases hupdate

theorem planFrom_actions {options : PassOptions} {merged : MergeResult} {preserved : Preserving}
    {path : String} {kind : ActionKind}
    (h : ⟨path, kind⟩ ∈ (planFrom options merged preserved).plan.actions) :
    ∃ view, kind = .relocate ∨
      (planPath (planFrom options merged preserved).scan.entries preserved.state.files
        merged.manifest view path).1 = some kind ∨
      kind = .updatePlaceholder ∧
        (planPath (planFrom options merged preserved).scan.entries preserved.state.files
          merged.manifest view path).1 = some .hydrate := by
  simp only [planFrom, mem_sortActions] at h
  refine ⟨_, (foldl_addRelocation_actions h).imp_right (Or.imp mem_reconcileWith.mp ?_)⟩
  exact And.imp_right mem_reconcileWith.mp

theorem ownSince_written {snapshot : Manifest} {w : World} {plan : Plan} {events : PassEvents}
    {n : ℕ} (hkeyed : w.Keyed) (hclock : passLamport snapshot w ≤ i64Max) {d : DeltaEntry}
    (hd : d ∈ (w.after snapshot plan events n).ownSince
      (mergeDeltas snapshot w.logged).remoteLamport) :
    d ∈ written Effect.writes (performed snapshot w plan events n) := by
  simp only [World.ownSince, List.mem_filter, decide_eq_true_eq] at hd
  obtain ⟨hlogged, -, hlamport⟩ := hd
  rcases (mem_logged_after hkeyed hclock).mp hlogged with hold | hnew
  · have hle := (mergeDeltas_remoteLamport_le.mp
      (le_refl (mergeDeltas snapshot w.logged).remoteLamport)).2 d hold
    omega
  · exact hnew

section Replan

variable {options : PassOptions} {snapshot : Manifest} {w : World} {preserved : Preserving}
  {events : PassEvents} {n : ℕ} {path : String} {hash hash₀ : ContentHash}

/-- The merged manifest the pass was planned from has no live version of a file that reading the
log again wants deleted, and the pass has logged none. -/
theorem replan_gone (hsnapshot : snapshot.KeysMatch) (hkeyed : w.Keyed)
    (hclock : passLamport snapshot w ≤ i64Max)
    (hlocal : localHash (planFrom options (mergeDeltas snapshot w.logged) preserved).scan.entries
      path = some hash₀)
    (hgone : (mergeDeltas snapshot (w.after snapshot
      (planFrom options (mergeDeltas snapshot w.logged) preserved).plan events n).logged).manifest.liveHash
        path = none) :
    (mergeDeltas snapshot w.logged).manifest.liveHash path = none ∧
      ∀ d ∈ written Effect.writes (performed snapshot w
        (planFrom options (mergeDeltas snapshot w.logged) preserved).plan events n),
        d.path ≠ path := by
  have hremote : ⟨path, .deleteRemote⟩ ∉
      (planFrom options (mergeDeltas snapshot w.logged) preserved).plan.actions := by
    intro hmem
    obtain ⟨view, hrelocate | hplanned | ⟨hupdate, -⟩⟩ := planFrom_actions hmem
    · cases hrelocate
    · have hkinds := planPath_local_kinds hlocal hplanned
      simp at hkinds
    · cases hupdate
  have hnone : ∀ d ∈ written Effect.writes (performed snapshot w
      (planFrom options (mergeDeltas snapshot w.logged) preserved).plan events n),
      d.path ≠ path := fun d hd hpath =>
    reread_live hsnapshot hkeyed hclock hremote ⟨d, hd, hpath⟩ hgone
  refine ⟨?_, hnone⟩
  have hsame := reread_eq hsnapshot hkeyed hclock hnone
  unfold Manifest.liveHash at hgone ⊢
  rwa [hsame] at hgone

theorem replan_base (hclock : passLamport snapshot w ≤ i64Max)
    (hfits : events.Fits (planFrom options (mergeDeltas snapshot w.logged) preserved).plan)
    (hlocal : localHash (planFrom options (mergeDeltas snapshot w.logged) preserved).scan.entries
      path = some hash₀)
    (hgone : (mergeDeltas snapshot w.logged).manifest.liveHash path = none)
    (hnone : ∀ d ∈ written Effect.writes (performed snapshot w
      (planFrom options (mergeDeltas snapshot w.logged) preserved).plan events n), d.path ≠ path)
    (hbase : (w.after snapshot (planFrom options (mergeDeltas snapshot w.logged) preserved).plan
      events n).device.files.lastSynced path = some hash) :
    w.device.files.lastSynced path = some hash := by
  rcases World.lastSynced_runAll hbase with hbase | ⟨e, he, hconfirms⟩
  · exact hbase
  have hneeds := (performed_spec
    (planFrom options (mergeDeltas snapshot w.logged) preserved).plan events n hclock).needs he
  have planned : ∀ kind, ⟨path, kind⟩ ∈
      (planFrom options (mergeDeltas snapshot w.logged) preserved).plan.actions →
      kind = .relocate ∨ kind = .deleteLocal ∨ kind = .upload ∨ kind = .conflict := by
    intro kind hmem
    obtain ⟨view, hrelocate | hplanned | ⟨-, hplanned⟩⟩ := planFrom_actions hmem
    · exact .inl hrelocate
    · have hkinds := planPath_local_kinds hlocal hplanned
      tauto
    · have hkinds := planPath_local_kinds hlocal hplanned
      simp at hkinds
  rcases hconfirms.needs hneeds with (⟨action, r, hjoined, rfl, -⟩ | ⟨hplaceholder, -⟩) | ⟨d, hd, hversion⟩
  · obtain ⟨hmem, hkind⟩ := hfits action r hjoined
    have hkinds := planned action.kind hmem
    rcases hkind with hkind | hkind <;> simp [hkind] at hkinds
  · rcases hplaceholder with hmem | hmem
    · have hkinds := planned _ hmem
      simp at hkinds
    · have hkinds := planned _ hmem
      simp at hkinds
  · exact absurd hversion.1 (hnone d hd)

end Replan

/-- Wherever a pass is cut off, what its baseline claims to share is in the log, and reading the
log again asks for no local delete that the pass had not planned itself. -/
theorem baseline_behind_log (snapshot : Manifest) (hsnapshot : snapshot.KeysMatch) (w : World)
    (hkeyed : w.Keyed) (plan : Plan) (events : PassEvents)
    (hclock : passLamport snapshot w ≤ i64Max) (n : ℕ) :
    let merged := mergeDeltas snapshot w.logged
    let es := performed snapshot w plan events n
    let t := w.after snapshot plan events n
    (∀ e ∈ es, e.needs plan merged.manifest events (t.ownSince merged.remoteLamport)) ∧
    (∀ path hash, t.device.files.lastSynced path = some hash →
      w.device.files.lastSynced path = some hash ∨ ∃ e ∈ es, e.Confirms path hash) ∧
    (∀ path, t.device.files[path]? = none →
      w.device.files[path]? = none ∨ .removeRow path ∈ es) ∧
    ∀ options utc w₀ pass, planPass options utc snapshot w.logged w₀ = some (pass, w) →
      pass.plan = plan → events.Fits plan →
      ∀ entries view path hash, localHash entries path = some hash →
        (⟨path, .upload⟩ ∈ plan.actions ∨ localHash pass.scan.entries path = some hash) →
        (planPath entries t.device.files (mergeDeltas snapshot t.logged).manifest view path).1 =
          some .deleteLocal →
        ⟨path, .deleteLocal⟩ ∈ plan.actions ∧ ⟨path, .upload⟩ ∉ plan.actions ∧
          ∀ d ∈ t.ownSince merged.remoteLamport, d.path ≠ path := by
  refine ⟨fun e he => ?_, fun path hash => World.lastSynced_runAll, fun path => World.row_runAll, ?_⟩
  · have hneeds := (performed_spec plan events n hclock).needs he
    exact Effect.needs_mono (fun d hd => written_ownSince hkeyed hclock hd) hneeds
  · intro options utc w₀ pass hpass hplan hfits entries view path hash hhash hfile hdelete
    obtain ⟨preserved, rfl, hdevice⟩ := planPass_eq_some hpass
    subst hplan
    obtain ⟨hbase, hgone⟩ := (planPath_local_deleteLocal hhash).mp hdelete
    obtain ⟨hash₀, hlocal⟩ : ∃ hash₀, localHash
        (planFrom options (mergeDeltas snapshot w.logged) preserved).scan.entries path =
          some hash₀ := by
      rcases hfile with hupload | hsame
      · obtain ⟨view, hrelocate | hplanned | ⟨hupdate, -⟩⟩ := planFrom_actions hupload
        · cases hrelocate
        · exact planPath_upload hplanned
        · cases hupdate
      · exact ⟨hash, hsame⟩
    obtain ⟨hgone₀, hnone⟩ := replan_gone hsnapshot hkeyed hclock hlocal hgone
    have hbase₀ := replan_base hclock hfits hlocal hgone₀ hnone hbase
    have hupload : ⟨path, .upload⟩ ∉
        (planFrom options (mergeDeltas snapshot w.logged) preserved).plan.actions := by
      intro hmem
      obtain ⟨view, hrelocate | hplanned | ⟨hupdate, -⟩⟩ := planFrom_actions hmem
      · cases hrelocate
      · have hkinds := planPath_local_kinds hlocal hplanned
        rw [hgone₀, ← hdevice, hbase₀] at hkinds
        simp at hkinds
      · cases hupdate
    refine ⟨?_, hupload, fun d hd => hnone d (ownSince_written hkeyed hclock hd)⟩
    have hsame := hfile.resolve_left hupload
    rw [planFrom_deleteLocal]
    exact (planPath_local_deleteLocal hsame).mpr ⟨hdevice ▸ hbase₀, hgone₀⟩

/-- A device with one file and one upload of it that was interrupted. -/
def interrupted (hash : ContentHash) (lamport : ℕ) (log : StringMap (List DeltaEntry)) : World :=
  let pending : PendingUpload :=
    { path := "f", uploadId := "u", partSize := 8, contentHash := 10, nonce := []
      completedParts := [] }
  { device := { deviceId := "laptop", deviceName := "pc", files := .single "f" (.synced "f" 1 hash)
                uploads := .single "f" pending, lamport, manifestGeneration := 0 }
    tree := .single "f" ⟨⟨1, 0⟩, 10, true, none⟩
    log }

/-- Its upload comes to `outcome`; "g" is uploaded beside it. -/
def resumption (w : World) (outcome : ResumeOutcome) : PassEvents where
  uploads := w.device.uploads.values.map fun pending => (pending, outcome)
  joined := [(⟨"g", .upload⟩, .uploaded ⟨1, 0, 20, "data/g"⟩)]
  unix := fun _ => 0
  utc := fun _ => "now"

/-- The remote version of "f" is deleted on the phone while a repair uploads it again. -/
def repaired : World :=
  let first : DeltaEntry := .sample "f" "phone" 1 10 none
  interrupted 10 1 (.single (deltaKey 2 "phone" 0)
    [first, { first with deleted := true, lamport := 2, baseHash := some 10 }])

theorem baseline_behind_log_resumed :
    let w := interrupted 9 1 ∅
    let events := resumption w (.resumed ⟨1, 0, 10, "data/f"⟩)
    Effect.confirmSync "f" 1 0 10 ∈ performed ∅ w ⟨[⟨"g", .upload⟩], ∅⟩ events 4 ∧
    Effect.needs ⟨[⟨"g", .upload⟩], ∅⟩ (mergeDeltas ∅ w.logged).manifest events
      ((w.after ∅ ⟨[⟨"g", .upload⟩], ∅⟩ events 4).ownSince 0) (.confirmSync "f" 1 0 10) := by
  intro w events
  have hmem : Effect.confirmSync "f" 1 0 10 ∈
      performed ∅ w ⟨[⟨"g", .upload⟩], ∅⟩ events 4 := by
    decide +kernel
  have hkeyed : w.Keyed := fun _ _ h => by simp [w, interrupted] at h
  exact ⟨hmem, (baseline_behind_log ∅ .empty w hkeyed ⟨[⟨"g", .upload⟩], ∅⟩ events
    (by decide +kernel) 4).1 _ hmem⟩

/-- A file whose pending upload fails to resume is deleted by the next pass, as this one had
planned already; and with the stored clock at the end of its range, `apply` logs over the
resumption's object. -/
theorem baseline_behind_log_exceptions :
    (planPass ⟨fun _ => false, ⟨[], [], false⟩, []⟩ (fun _ => "now") ∅ repaired.logged
      repaired).map (fun pass =>
        let t := pass.2.after ∅ pass.1.plan (resumption pass.2 .error) 1
        ((resumption pass.2 .error).uploads.map (fun u => (u.1.path, u.2)),
          (planPath pass.1.scan.entries t.device.files (mergeDeltas ∅ t.logged).manifest
            ⟨∅, ⟨[], [], false⟩, []⟩ "f").1)) = some ([("f", .error)], some .deleteLocal) ∧
    (let w := interrupted 9 i64Max ∅
      let t := w.after ∅ ⟨[⟨"g", .upload⟩], ∅⟩
        (resumption w (.resumed ⟨1, 0, 10, "data/f"⟩)) 9
      (t.device.files.lastSynced "f", t.logged.map DeltaEntry.path) = (some 10, ["g"])) := by
  constructor
  · decide +kernel
  · decide +kernel

end FileMirror
