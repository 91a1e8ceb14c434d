import FileMirror.BackupRun
import FileMirror.Flights

set_option autoImplicit false

namespace FileMirror

open Transitions Flights

namespace BackupStore

def Holds (s : BackupStore) (packId id : ObjectId) : Prop :=
  ∃ pack, s.packs[packId]? = some pack ∧ id ∈ pack.ids

/-- A stored index object lists the blob under a stored pack, which holds it. -/
def Lists (s : BackupStore) (id : ObjectId) : Prop :=
  ∃ (key : ObjectId) (packs : List PackEntries), s.indexes[key]? = some packs ∧
    ∃ p ∈ packs, id ∈ p.ids ∧ s.Holds p.packId id

/-- A stored index object lists the blob under a pack that is missing or does not hold it. -/
def Dangles (s : BackupStore) (id : ObjectId) : Prop :=
  ∃ (key : ObjectId) (packs : List PackEntries), s.indexes[key]? = some packs ∧
    ∃ p ∈ packs, id ∈ p.ids ∧ ¬ s.Holds p.packId id

def HasPack (s : BackupStore) (p : PackEntries) : Prop :=
  ∃ pack, s.packs[p.packId]? = some pack ∧ pack.entries = p.entries

structure Grows (s t : BackupStore) : Prop where
  packs : ∀ (key : ObjectId) (pack : Pack), s.packs[key]? = some pack → t.packs[key]? = some pack
  indexes : ∀ (key : ObjectId) (packs : List PackEntries),
    s.indexes[key]? = some packs → t.indexes[key]? = some packs

variable {s t : BackupStore} {p : PackEntries} {id : ObjectId}

theorem Grows.hasPack (h : s.Grows t) (hp : s.HasPack p) : t.HasPack p := by
  obtain ⟨pack, hpack, hentries⟩ := hp
  exact ⟨pack, h.packs _ _ hpack, hentries⟩

theorem Grows.lists (h : s.Grows t) (hid : s.Lists id) : t.Lists id := by
  obtain ⟨key, packs, hkey, p, hp, hmem, pack, hpack, hholds⟩ := hid
  exact ⟨key, packs, h.indexes _ _ hkey, p, hp, hmem, pack, h.packs _ _ hpack, hholds⟩

theorem HasPack.holds (h : s.HasPack p) (hid : id ∈ p.ids) : s.Holds p.packId id := by
  obtain ⟨pack, hpack, hentries⟩ := h
  refine ⟨pack, hpack, ?_⟩
  rw [Pack.ids, hentries]
  exact hid

theorem lists_or_dangles
    (h : ∃ (key : ObjectId) (packs : List PackEntries), s.indexes[key]? = some packs ∧
      ∃ p ∈ packs, id ∈ p.ids) : s.Lists id ∨ s.Dangles id := by
  obtain ⟨key, packs, hkey, p, hp, hid⟩ := h
  by_cases hholds : s.Holds p.packId id
  · exact .inl ⟨key, packs, hkey, p, hp, hid, hholds⟩
  · exact .inr ⟨key, packs, hkey, p, hp, hid, hholds⟩

end BackupStore

namespace Call

def flight : Call → Option (List ObjectId)
  | .uploading _ pack | .uploaded _ pack | .indexed _ pack => some pack.ids
  | _ => none

def stored : Call → List PackEntries
  | .uploaded _ pack | .indexed _ pack => [pack.listing]
  | .indexing _ packs => packs
  | .taking headers _ => headers
  | .taken pack headers _ => pack :: headers
  | _ => []

def inHand : Call → List PackEntries
  | .indexing _ packs => packs
  | .taken pack _ _ => [pack]
  | _ => []

/-- Whether the call is a `flush` or a `save_snapshot`, and when it was called. -/
def writes : Call → Option Bool
  | .uploading (.flush late) _ | .uploaded (.flush late) _ | .indexed (.flush late) _ => some late
  | .flushing late | .flushed late | .indexing late _ => some late
  | .publishing late _ | .writing late _ _ => some late
  | _ => none

def fails : Call → Bool
  | .failing _ => true
  | _ => false

def Plain (call : Call) : Prop :=
  call.flight = Option.none ∧ call.inHand = [] ∧ call.fails = false

/-- What a `flush` or a `save_snapshot` has made sure of before its put. -/
def Due (covered : ObjectId → Prop) : Call → Prop
  | .indexing late _ => late = false
  | .writing late _ owed => late = false ∧ ∀ id ∈ owed, covered id
  | _ => True

theorem Due.imp {call : Call} {covered covered' : ObjectId → Prop} (h : call.Due covered)
    (himp : ∀ id, covered id → covered' id) : call.Due covered' := by
  cases call with
  | writing late snapshot owed => exact ⟨h.1, fun id hid => himp id (h.2 id hid)⟩
  | _ => exact h

/-- A `save_blob` that uploads a pack uploads its own blob with it. -/
def Sound : Call → Prop
  | .uploading (.saveBlob id _) pack | .uploaded (.saveBlob id _) pack
  | .indexed (.saveBlob id _) pack => id ∈ pack.ids
  | _ => True

end Call

namespace BackupRun

variable {ι : Type*} {s₀ : BackupStore} {r t : BackupRun ι} {c : Option ι}
  {call : Call} {id : ObjectId} {p : PackEntries} {pack : Pack} {late : Bool}

def waiting (r : BackupRun ι) : List ObjectId :=
  (r.repo.state.writer.map Writer.ids).getD []

def flights (r : BackupRun ι) (c : Option ι) : Option (List ObjectId) := (r.calls c).flight

def lostIds (r : BackupRun ι) : List (List ObjectId) := r.history.lost.map Pack.ids

def Held (s₀ : BackupStore) (r : BackupRun ι) (id : ObjectId) : Prop :=
  (r.store.Lists id ∨ s₀.Dangles id) ∨ id ∈ r.repo.state.inflight ∨
    (∃ p ∈ r.repo.state.newPacks, id ∈ p.ids) ∨ (∃ p ∈ (r.calls none).inHand, id ∈ p.ids) ∨
    r.history.indexLost = true

def Covered (s₀ : BackupStore) (r : BackupRun ι) (id : ObjectId) : Prop :=
  r.store.Lists id ∨ s₀.Dangles id

structure Ordered (s₀ : BackupStore) (r : BackupRun ι) : Prop where
  target : r.repo.packTarget ≤ targetSize
  tracked : Tracked r.flights r.lostIds r.waiting r.repo.state.inflight
  listed : ∀ p ∈ r.repo.state.newPacks, r.store.HasPack p
  stored : ∀ c, ∀ p ∈ (r.calls c).stored, r.store.HasPack p
  sound : ∀ c, (r.calls c).Sound
  acked : ∀ id ∈ r.history.acked, r.Held s₀ id ∨ id ∈ r.waiting
  indexed : ∀ id, r.repo.index.has id = true → r.Held s₀ id
  small : ∀ w, r.repo.state.writer = some w → 35 * w.entries.length ≤ w.size ∧
    (w.size < r.repo.packTarget ∨ w.entries = [])
  reported : r.history.indexLost = true →
    r.repo.state.failed.isSome = true ∨ (r.calls none).fails = true
  unlost : ∀ late, (r.calls none).writes = some late →
    r.history.indexLost = false ∧ (late = true → r.history.lost ≠ [])
  due : (r.calls none).Due (r.Covered s₀)
  published : ∀ entry ∈ r.history.published, entry.1 = false ∧ ∀ id ∈ entry.2, r.Covered s₀ id
  flushes : ∀ late ∈ r.history.flushes, late = false

theorem Ordered.ack {ids : List ObjectId} (h : r.Ordered s₀)
    (hids : ∀ id ∈ ids, r.Held s₀ id ∨ id ∈ r.waiting) : (r.ack ids).Ordered s₀ := by
  refine { h with acked := ?_ }
  intro id hid
  obtain hid | hid := List.mem_append.mp hid
  · exact hids id hid
  · exact h.acked id hid

theorem Ordered.grows {store : BackupStore} (h : r.Ordered s₀) (hgrows : r.store.Grows store) :
    ({ r with store } : BackupRun ι).Ordered s₀ := by
  have hcovered : ∀ id, r.Covered s₀ id → store.Lists id ∨ s₀.Dangles id :=
    fun id hid => hid.imp_left hgrows.lists
  have hheld : ∀ id, r.Held s₀ id → ({ r with store } : BackupRun ι).Held s₀ id :=
    fun id hid => hid.imp_left (hcovered id)
  exact { h with
    listed := fun p hp => hgrows.hasPack (h.listed p hp)
    stored := fun c p hp => hgrows.hasPack (h.stored c p hp)
    acked := fun id hid => (h.acked id hid).imp_left (hheld id)
    indexed := fun id hid => hheld id (h.indexed id hid)
    due := h.due.imp hcovered
    published := fun entry hentry =>
      ⟨(h.published entry hentry).1,
        fun id hid => hcovered id ((h.published entry hentry).2 id hid)⟩ }

theorem Ordered.setIndex (h : r.Ordered s₀) (hp : ∀ id ∈ p.ids, r.Held s₀ id) :
    (r.setIndex (r.repo.index.addPack p)).Ordered s₀ := by
  refine { h with indexed := ?_ }
  intro id hid
  exact (Index.has_addPack.mp hid).elim (h.indexed id) (hp id)

theorem Ordered.setState {state : WriteState} (h : r.Ordered s₀)
    (htracked : Tracked r.flights r.lostIds (r.setState state).waiting state.inflight)
    (hlisted : ∀ p ∈ state.newPacks, r.store.HasPack p)
    (hheld : ∀ id, r.Held s₀ id → (r.setState state).Held s₀ id)
    (hwaiting : ∀ id ∈ r.waiting,
      (r.setState state).Held s₀ id ∨ id ∈ (r.setState state).waiting)
    (hsmall : ∀ w, state.writer = some w → 35 * w.entries.length ≤ w.size ∧
      (w.size < r.repo.packTarget ∨ w.entries = []))
    (hfailed : r.repo.state.failed.isSome = true → state.failed.isSome = true) :
    (r.setState state).Ordered s₀ :=
  { h with
    tracked := htracked
    listed := hlisted
    acked := fun id hid => (h.acked id hid).elim (fun hid => .inl (hheld id hid)) (hwaiting id)
    indexed := fun id hid => hheld id (h.indexed id hid)
    small := hsmall
    reported := fun hlost => (h.reported hlost).imp_left hfailed }

theorem Ordered.setWriter {writer : Option Writer} (h : r.Ordered s₀)
    (hids : ∀ id ∈ r.waiting, id ∈ (writer.map Writer.ids).getD [])
    (htracked : Tracked r.flights r.lostIds ((writer.map Writer.ids).getD [])
      r.repo.state.inflight)
    (hsmall : ∀ w, writer = some w → 35 * w.entries.length ≤ w.size ∧
      (w.size < r.repo.packTarget ∨ w.entries = [])) :
    (r.setState { r.repo.state with writer }).Ordered s₀ :=
  h.setState htracked h.listed (fun _ hid => hid) (fun id hid => .inr (hids id hid)) hsmall id

theorem Ordered.fail (h : r.Ordered s₀) (message : String) :
    (r.setState (r.repo.state.fail message)).Ordered s₀ :=
  h.setState h.tracked h.listed (fun _ hid => hid) (fun _ hid => .inr hid) h.small
    (fun _ => rfl)

theorem pending_held (h : r.repo.state.isPending id = true) :
    r.Held s₀ id ∨ id ∈ r.waiting := by
  unfold WriteState.isPending at h
  obtain hwriter | hinflight := Bool.or_eq_true_iff.mp h
  · obtain ⟨w, hw, hid⟩ := (Option.any_eq_true _ _).mp hwriter
    right
    rw [waiting, hw]
    exact Writer.has_iff.mp hid
  · exact .inl (.inr (.inl (of_decide_eq_true hinflight)))

theorem not_pending (h : ¬ r.repo.state.isPending id = true) :
    id ∉ r.waiting ∧ id ∉ r.repo.state.inflight := by
  unfold WriteState.isPending at h
  rw [Bool.or_eq_true_iff, not_or] at h
  refine ⟨fun hid => h.1 ?_, fun hid => h.2 (decide_eq_true hid)⟩
  unfold waiting at hid
  obtain hnone | ⟨w, hw⟩ := Option.eq_none_or_eq_some r.repo.state.writer
  · rw [hnone] at hid
    cases hid
  · rw [hw] at hid
    exact (Option.any_eq_true _ _).mpr ⟨w, hw, Writer.has_iff.mpr hid⟩

theorem waiting_getD (packId : ObjectId) :
    (r.repo.state.writer.getD (.new packId)).ids = r.waiting := by
  unfold waiting
  cases r.repo.state.writer with
  | none => rfl
  | some w => rfl

theorem Ordered.small_getD (h : r.Ordered s₀) (packId : ObjectId) :
    let w := r.repo.state.writer.getD (.new packId)
    35 * w.entries.length ≤ w.size ∧ (w.size < r.repo.packTarget ∨ w.entries = []) := by
  obtain hnone | ⟨w, hw⟩ := Option.eq_none_or_eq_some r.repo.state.writer
  · rw [hnone]
    exact ⟨le_refl 0, .inr rfl⟩
  · rw [hw]
    exact h.small w hw

theorem grows_storePack (hfresh : pack.id ∉ r.store.packs) :
    r.store.Grows (r.storePack pack).store where
  packs := fun _ _ hkey => IdMap.insert_keeps hfresh hkey
  indexes := fun _ _ hkey => hkey

theorem grows_storeIndex {packs : List PackEntries} (hfresh : id ∉ r.store.indexes) :
    r.store.Grows (r.storeIndex id packs).store where
  packs := fun _ _ hkey => hkey
  indexes := fun _ _ hkey => IdMap.insert_keeps hfresh hkey

theorem hasPack_storePack : (r.storePack pack).store.HasPack pack.listing := by
  refine ⟨pack, ?_, rfl⟩
  change (r.store.packs.insert pack.id pack)[pack.id]? = some pack
  rw [IdMap.getElem?_insert, if_pos rfl]

theorem Ordered.timely (h : r.Ordered s₀) (hwrites : (r.calls none).writes = some late)
    (hinflight : r.repo.state.inflight = ∅) : late = false := by
  have htracked := h.tracked
  rw [hinflight] at htracked
  have hlost : r.history.lost = [] := List.map_eq_nil_iff.mp htracked.nothing_lost
  rw [← Bool.not_eq_true]
  exact fun htrue => (h.unlost late hwrites).2 htrue hlost

theorem Begins.ordered (h : r.Begins) (htarget : r.repo.packTarget ≤ targetSize) :
    r.Ordered r.store := by
  have hstate := h.state
  have hcalls : ∀ c, r.calls c = .idle none := h.calls
  have hhistory := h.history
  constructor
  · exact htarget
  · have hflights : r.flights = fun _ => none := by
      funext c
      unfold flights
      rw [hcalls]
      rfl
    rw [hflights, lostIds, waiting, hstate, hhistory]
    exact Tracked.start
  · rw [hstate]
    exact fun p hp => absurd hp List.not_mem_nil
  · intro c p hp
    rw [hcalls] at hp
    cases hp
  · intro c
    rw [hcalls]
    trivial
  · rw [hhistory]
    exact fun id hid => absurd hid List.not_mem_nil
  · intro id hid
    obtain hload | hnew := h.index
    · rw [hload] at hid
      exact .inl (BackupStore.lists_or_dangles (Index.has_load hid))
    · rw [hnew] at hid
      exact absurd hid Index.has_new
  · rw [hstate]
    rintro w ⟨⟩
  · rw [hhistory]
    nofun
  · rw [hcalls]
    rintro late ⟨⟩
  · rw [hcalls]
    trivial
  · rw [hhistory]
    exact fun entry hentry => absurd hentry List.not_mem_nil
  · rw [hhistory]
    exact fun late hlate => absurd hlate List.not_mem_nil

variable [DecidableEq ι]

theorem goto_self : (r.goto c call).calls c = call := Function.update_self ..

theorem goto_of_ne {d : Option ι} (h : d ≠ c) : (r.goto c call).calls d = r.calls d :=
  Function.update_of_ne h ..

theorem flights_goto : (r.goto c call).flights = Function.update r.flights c call.flight := by
  funext d
  unfold flights
  by_cases hd : d = c
  · rw [hd, goto_self, Function.update_self]
  · rw [goto_of_ne hd, Function.update_of_ne hd]

theorem Held.goto (hid : r.Held s₀ id) (hhand : ∀ p ∈ (r.calls c).inHand, p ∈ call.inHand) :
    (r.goto c call).Held s₀ id := by
  obtain hid | hid | hid | ⟨p, hp, hid⟩ | hid := hid
  · exact .inl hid
  · exact .inr (.inl hid)
  · exact .inr (.inr (.inl hid))
  · refine .inr (.inr (.inr (.inl ⟨p, ?_, hid⟩)))
    by_cases hc : none = c
    · subst hc
      rw [goto_self]
      exact hhand p hp
    · rw [goto_of_ne hc]
      exact hp
  · exact .inr (.inr (.inr (.inr hid)))

theorem Ordered.goto (h : r.Ordered s₀)
    (htracked : Tracked (Function.update r.flights c call.flight) r.lostIds r.waiting
      r.repo.state.inflight)
    (hstored : ∀ p ∈ call.stored, r.store.HasPack p) (hsound : call.Sound)
    (hheld : ∀ id, r.Held s₀ id → (r.goto c call).Held s₀ id)
    (hfails : (r.calls c).fails = true → r.repo.state.failed.isSome = true)
    (hwrites : c = none → ∀ late, call.writes = some late →
      r.history.indexLost = false ∧ (late = true → r.history.lost ≠ []))
    (hdue : call.Due (r.Covered s₀)) : (r.goto c call).Ordered s₀ := by
  refine { h with
    tracked := ?_
    stored := ?_
    sound := ?_
    acked := ?_
    indexed := ?_
    reported := ?_
    unlost := ?_
    due := ?_ }
  · rw [flights_goto]
    exact htracked
  · intro d p hp
    by_cases hd : d = c
    · subst hd
      rw [goto_self] at hp
      exact hstored p hp
    · rw [goto_of_ne hd] at hp
      exact h.stored d p hp
  · intro d
    by_cases hd : d = c
    · subst hd
      rw [goto_self]
      exact hsound
    · rw [goto_of_ne hd]
      exact h.sound d
  · intro id hid
    exact (h.acked id hid).imp_left (hheld id)
  · exact fun id hid => hheld id (h.indexed id hid)
  · intro hlost
    by_cases hc : none = c
    · subst hc
      exact .inl ((h.reported hlost).elim id hfails)
    · rw [goto_of_ne hc]
      exact h.reported hlost
  · by_cases hc : none = c
    · subst hc
      rw [goto_self]
      exact hwrites rfl
    · rw [goto_of_ne hc]
      exact h.unlost
  · by_cases hc : none = c
    · subst hc
      rw [goto_self]
      exact hdue
    · rw [goto_of_ne hc]
      exact h.due

theorem Ordered.same_flight (h : r.Ordered s₀) (hflight : call.flight = (r.calls c).flight) :
    Tracked (Function.update r.flights c call.flight) r.lostIds r.waiting
      r.repo.state.inflight := by
  rw [hflight]
  exact (Function.update_eq_self c r.flights).symm ▸ h.tracked

theorem Ordered.moves (h : r.Ordered s₀) (hplain : (r.calls c).Plain)
    (hcall : call.flight = none ∧ call.stored = [] ∧ call.Sound)
    (hwrites : c = none → ∀ late, call.writes = some late →
      r.history.indexLost = false ∧ (late = true → r.history.lost ≠ []))
    (hdue : call.Due (r.Covered s₀)) : (r.goto c call).Ordered s₀ := by
  obtain ⟨hflight, hhand, hfails⟩ := hplain
  obtain ⟨hnone, hstored, hsound⟩ := hcall
  refine h.goto (h.same_flight (hnone.trans hflight.symm)) ?_ hsound ?_ ?_ hwrites hdue
  · rw [hstored]
    exact fun p hp => absurd hp List.not_mem_nil
  · intro id hid
    refine hid.goto fun p hp => ?_
    rw [hhand] at hp
    cases hp
  · rw [hfails]
    nofun

theorem Ordered.returns {result : Except BackupError Returned} (h : r.Ordered s₀)
    (hplain : (r.calls c).Plain) : (r.returns c result).Ordered s₀ := by
  refine h.moves hplain ⟨rfl, rfl, trivial⟩ ?_ ?_
  · rintro _ late ⟨⟩
  · trivial

theorem Ordered.acks {added : Bool} (h : r.Ordered s₀) (hid : r.Held s₀ id ∨ id ∈ r.waiting)
    (hplain : (r.calls c).Plain) : (r.acks c id added).Ordered s₀ := by
  have hack : (r.ack [id]).Ordered s₀ := h.ack fun other hother => by
    rw [List.mem_singleton.mp hother]
    exact hid
  exact hack.returns hplain

theorem Ordered.departs {uploader : Uploader} (h : r.Ordered s₀) (hplain : (r.calls c).Plain)
    (htracked : Tracked r.flights r.lostIds pack.ids r.repo.state.inflight)
    (hids : ∀ id ∈ r.waiting, id ∈ pack.ids) (hne : pack.ids ≠ [])
    (hsound : (Call.uploading uploader pack).Sound)
    (hwrites : c = none → ∀ late, (Call.uploading uploader pack).writes = some late →
      r.history.indexLost = false ∧ (late = true → r.history.lost ≠ [])) :
    ((r.setState (r.repo.state.depart pack)).goto c (.uploading uploader pack)).Ordered s₀ := by
  obtain ⟨_, hhand, hfails⟩ := hplain
  have hstate : (r.setState (r.repo.state.depart pack)).Ordered s₀ := by
    refine h.setState ?_ h.listed ?_ ?_ ?_ id
    · exact h.tracked.widen fun a ha => Finset.mem_union_left _ ha
    · rintro id (hid | hid | hid)
      · exact .inl hid
      · exact .inr (.inl (Finset.mem_union_left _ hid))
      · exact .inr (.inr hid)
    · intro id hid
      exact .inl (.inr (.inl (Finset.mem_union_right _ (List.mem_toFinset.mpr (hids id hid)))))
    · rintro w ⟨⟩
  refine hstate.goto (htracked.launch hne) ?_ hsound ?_ ?_ hwrites trivial
  · exact fun p hp => absurd hp List.not_mem_nil
  · intro id hid
    refine hid.goto fun p hp => ?_
    change p ∈ (r.calls c).inHand at hp
    rw [hhand] at hp
    cases hp
  · intro hfailing
    change (r.calls c).fails = true at hfailing
    rw [hfails] at hfailing
    cases hfailing

end BackupRun

end FileMirror
