import FileMirror.CopiedBlobs
import FileMirror.PruneMarks

set_option autoImplicit false

namespace FileMirror.Prune

section Purpose

variable (codec : BlobCodec)

def Stores (store : PruneStore) (l : Location) : Prop :=
  ∃ pack, store.packs[l.packId]? = some pack ∧ Opens codec l.entry pack.data

def Salvageable (store : PruneStore) (b : ObjectId) : Prop :=
  ∃ l, Index.Lists store.indexes l ∧ l.entry.id = b ∧ Stores codec store l

/-- A fresh `index::load` resolves the blob to a copy that can be read. -/
def Resolves (store : PruneStore) (b : ObjectId) : Prop :=
  ∃ ix l, Index.read store.indexes = .ok ix ∧ ix.lookup b = some l ∧ Stores codec store l

def applyAll (now : ℕ) (store : PruneStore) (effects : List Effect) : PruneStore :=
  effects.foldl (Effect.apply now) store

def Refuses (outcome : List Effect × Except BackupError Report) : Prop :=
  (∃ e, outcome.2 = .error e) ∧ ∀ effect ∈ outcome.1, effect.deletes = false

/-- An error before anything is deleted, or every blob that is needed and can be read still can. -/
def KeepsCopies (now : ℕ) (store : PruneStore) (forget : List ObjectId)
    (outcome : List Effect × Except BackupError Report) : Prop :=
  Refuses outcome ∨ ∀ b, Needed codec store forget b → Salvageable codec store b →
    Resolves codec (applyAll now store outcome.1) b

/-- Of the listings of a blob that is needed and can be read, the first names a copy that can. -/
def Foremost (store : PruneStore) (forget : List ObjectId) : Prop :=
  ∀ b, Needed codec store forget b → Salvageable codec store b → ∃ l,
    ((Index.listings store.indexes).find? fun l => l.entry.id = b) = some l ∧ Stores codec store l

variable (draw : ℕ → ObjectId)

def Sorted.CopyFails (s : Sorted) : Prop := ∃ e, (copyAll codec draw s.repack 0).2 = .error e

def Sorted.drops (s : Sorted) : List ObjectId := s.doomed ++ s.repack.map Prod.fst

def Sorted.Keeps (s : Sorted) (packId : ObjectId) : Prop := ∃ p ∈ s.kept, p.packId = packId

end Purpose

def Effect.packPut : Effect → Option ObjectId
  | .putPack id _ => some id
  | _ => none

def Effect.indexPut : Effect → Option ObjectId
  | .putIndex id _ => some id
  | _ => none

/-- The ids drawn for the objects that are put are distinct and name nothing yet. -/
structure Fresh (store : PruneStore) (effects : List Effect) : Prop where
  distinct : (effects.filterMap Effect.packPut).Nodup
  pack : ∀ id ∈ effects.filterMap Effect.packPut, id ∉ store.packs
  listed : ∀ id ∈ effects.filterMap Effect.packPut, ∀ l, Index.Lists store.indexes l → l.packId ≠ id
  index : ∀ id ∈ effects.filterMap Effect.indexPut, id ∉ store.indexes

section Effects

variable (draw : ℕ → ObjectId) (now : ℕ) (store : PruneStore) (id : ObjectId)

theorem applyAll_append (effects more : List Effect) :
    applyAll now store (effects ++ more) = applyAll now (applyAll now store effects) more :=
  List.foldl_append

theorem getElem?_eraseAll {β : Type} (m : IdMap β) (ids : List ObjectId) :
    (ids.foldl Std.ExtTreeMap.erase m)[id]? = if id ∈ ids then none else m[id]? := by
  induction ids generalizing m with
  | nil => simp
  | cons first ids ih =>
      rw [List.foldl_cons, ih, Std.ExtTreeMap.getElem?_erase]
      simp only [Std.compare_eq_iff_eq, List.mem_cons, eq_comm (a := id)]
      by_cases hid : id ∈ ids
      · simp [hid]
      · by_cases hfirst : first = id
        · simp [hfirst]
        · simp [hid, hfirst]

theorem applyAll_forgets (ids : List ObjectId) :
    (applyAll now store (ids.map Effect.deleteSnapshot)).packs = store.packs ∧
      (applyAll now store (ids.map Effect.deleteSnapshot)).indexes = store.indexes := by
  induction ids generalizing store with
  | nil => exact ⟨rfl, rfl⟩
  | cons first ids ih => exact ih _

theorem applyAll_puts (packs : List NewPack) :
    (applyAll now store (packs.map (NewPack.put draw))).indexes = store.indexes ∧
      ((∀ p ∈ packs, draw p.drawn ≠ id) →
        (applyAll now store (packs.map (NewPack.put draw))).packs[id]? = store.packs[id]?) := by
  induction packs generalizing store with
  | nil => exact ⟨rfl, fun _ => rfl⟩
  | cons p packs ih =>
      obtain ⟨hindexes, hpacks⟩ := ih ((p.put draw).apply now store)
      refine ⟨hindexes, fun hne => ?_⟩
      obtain ⟨hp, hrest⟩ := List.forall_mem_cons.mp hne
      refine (hpacks hrest).trans ?_
      change (store.packs.insert (draw p.drawn) _)[id]? = _
      rw [IdMap.getElem?_insert, if_neg hp]

theorem applyAll_put {draw} {packs : List NewPack}
    (hdistinct : (packs.map fun p => draw p.drawn).Nodup) {p : NewPack} (hp : p ∈ packs) :
    (applyAll now store (packs.map (NewPack.put draw))).packs[draw p.drawn]? =
      some ⟨p.data, some now⟩ := by
  induction packs generalizing store with
  | nil => cases hp
  | cons first packs ih =>
      rw [List.map_cons, List.nodup_cons] at hdistinct
      obtain ⟨hfirst, hrest⟩ := hdistinct
      obtain rfl | hp := List.mem_cons.mp hp
      · have hlater : ∀ q ∈ packs, draw q.drawn ≠ draw p.drawn := by
          intro q hq heq
          exact hfirst (List.mem_map.mpr ⟨q, hq, heq⟩)
        refine ((applyAll_puts draw now _ _ packs).2 hlater).trans ?_
        change (store.packs.insert (draw p.drawn) _)[draw p.drawn]? = _
        rw [IdMap.getElem?_insert, if_pos rfl]
      · exact ih _ hrest hp

theorem applyAll_index (other : ObjectId) (kept : List PackEntries) :
    (applyAll now store (if kept = [] then [] else [Effect.putIndex id kept])).packs =
        store.packs ∧
      (applyAll now store (if kept = [] then [] else [Effect.putIndex id kept])).indexes[other]? =
        if kept ≠ [] ∧ id = other then some (.ok kept) else store.indexes[other]? := by
  by_cases hempty : kept = []
  · rw [if_pos hempty, if_neg fun h => h.1 hempty]
    exact ⟨rfl, rfl⟩
  · rw [if_neg hempty]
    refine ⟨rfl, ?_⟩
    change (store.indexes.insert id (.ok kept))[other]? = _
    rw [IdMap.getElem?_insert]
    simp [hempty]

theorem applyAll_erases {β : Type} (delete : ObjectId → Effect) (put : IdMap β → PruneStore)
    (hdelete : ∀ m id, (delete id).apply now (put m) = put (m.erase id)) (m : IdMap β)
    (ids : List ObjectId) :
    applyAll now (put m) (ids.map delete) = put (ids.foldl Std.ExtTreeMap.erase m) := by
  induction ids generalizing m with
  | nil => rfl
  | cons first ids ih =>
      change applyAll now ((delete first).apply now (put m)) (ids.map delete) = _
      rw [hdelete]
      exact ih _

end Effects

section Fates

variable {referenced : List ObjectId} {locations : List Location} {now unused : ℕ}
  {id : ObjectId} {pack : StoredPack} {e : Entry} {entries needed : List Entry}

theorem mem_entries :
    e ∈ (locations.filter fun l => l.packId = id).map Location.entry ↔ ⟨id, e⟩ ∈ locations := by
  rw [List.mem_map]
  constructor
  · rintro ⟨⟨packId, entry⟩, hmem, rfl⟩
    obtain ⟨hlocation, hid⟩ := List.mem_filter.mp hmem
    obtain rfl : packId = id := of_decide_eq_true hid
    exact hlocation
  · intro hlocation
    exact ⟨⟨id, e⟩, List.mem_filter.mpr ⟨hlocation, decide_eq_true rfl⟩, rfl⟩

theorem fate_keep (h : fate referenced locations now id pack = .keep unused entries) :
    e ∈ entries ↔ ⟨id, e⟩ ∈ locations := by
  unfold fate at h
  dsimp only at h
  split_ifs at h
  cases h
  rw [← mem_entries, List.mem_append, List.mem_filter, List.mem_filter, ← and_or_left]
  simp [em]

theorem fate_repack (h : fate referenced locations now id pack = .repack needed) :
    e ∈ needed ↔ ⟨id, e⟩ ∈ locations ∧ e.id ∈ referenced := by
  unfold fate at h
  dsimp only at h
  split_ifs at h
  cases h
  rw [← mem_entries, List.mem_filter, decide_eq_true_iff]

theorem fate_needed (now : ℕ) (pack : StoredPack) (hlocation : ⟨id, e⟩ ∈ locations) (he : e.id ∈ referenced) :
    (∃ needed, fate referenced locations now id pack = .repack needed) ∨
      ∃ unused entries, fate referenced locations now id pack = .keep unused entries := by
  have hentry := mem_entries.mpr hlocation
  have hneeded : e ∈ ((locations.filter fun l => l.packId = id).map Location.entry).filter
      fun e => e.id ∈ referenced := List.mem_filter.mpr ⟨hentry, decide_eq_true he⟩
  unfold fate
  dsimp only
  rw [if_neg (List.ne_nil_of_mem hentry), if_neg (List.ne_nil_of_mem hneeded)]
  split_ifs
  · exact .inl ⟨_, rfl⟩
  · exact .inr ⟨_, _, rfl⟩

variable {scan : Scan} {store : PruneStore} {ix : Index} {f : Fate}

theorem mem_fated {β : Type} {select : ObjectId × StoredPack × Fate → Option β} {x : β}
    {P : ObjectId → StoredPack → Fate → Prop}
    (hselect : ∀ id pack f, select (id, pack, f) = some x ↔ P id pack f) :
    x ∈ (sortPacks scan now store ix referenced).packs.filterMap select ↔
      ∃ id pack, store.packs[id]? = some pack ∧
        P id pack (fate referenced (scan.locations ix.locations) now id pack) := by
  simp only [sortPacks, List.mem_filterMap, List.mem_map, Prod.exists]
  constructor
  · rintro ⟨other, found, f, ⟨id, pack, hmem, heq⟩, hfound⟩
    cases heq
    exact ⟨other, found, Std.ExtTreeMap.mem_toList_iff_getElem?_eq_some.mp hmem,
      (hselect _ _ _).mp hfound⟩
  · rintro ⟨id, pack, hpack, hfate⟩
    exact ⟨_, _, _, ⟨id, pack, Std.ExtTreeMap.mem_toList_iff_getElem?_eq_some.mpr hpack, rfl⟩,
      (hselect _ _ _).mpr hfate⟩

theorem mem_doomed : id ∈ (sortPacks scan now store ix referenced).doomed ↔
    ∃ pack, store.packs[id]? = some pack ∧
      fate referenced (scan.locations ix.locations) now id pack = .doomed := by
  refine (mem_fated (P := fun other _ f => other = id ∧ f = .doomed) ?_).trans ?_
  · intro other found f
    cases f <;> simp
  · exact ⟨fun ⟨_, pack, hpack, hid, hfate⟩ => ⟨pack, hid ▸ hpack, hid ▸ hfate⟩,
      fun ⟨pack, hpack, hfate⟩ => ⟨id, pack, hpack, rfl, hfate⟩⟩

theorem mem_repack : (id, pack, needed) ∈ (sortPacks scan now store ix referenced).repack ↔
    store.packs[id]? = some pack ∧
      fate referenced (scan.locations ix.locations) now id pack = .repack needed := by
  refine (mem_fated (P := fun other found f => other = id ∧ found = pack ∧ f = .repack needed)
    ?_).trans ?_
  · intro other found f
    cases f <;> simp
  · exact ⟨fun ⟨_, _, hpack, hid, hfound, hfate⟩ => hid ▸ hfound ▸ ⟨hpack, hfate⟩,
      fun ⟨hpack, hfate⟩ => ⟨id, pack, hpack, rfl, rfl, hfate⟩⟩

theorem mem_kept : ⟨id, entries⟩ ∈ (sortPacks scan now store ix referenced).kept ↔
    ∃ pack unused, store.packs[id]? = some pack ∧
      fate referenced (scan.locations ix.locations) now id pack = .keep unused entries := by
  refine (mem_fated (P := fun other _ f => other = id ∧ ∃ unused, f = .keep unused entries)
    ?_).trans ?_
  · intro other found f
    cases f <;> simp
  · exact ⟨fun ⟨_, pack, hpack, hid, unused, hfate⟩ => ⟨pack, unused, hid ▸ hpack, hid ▸ hfate⟩,
      fun ⟨pack, unused, hpack, hfate⟩ => ⟨id, pack, hpack, rfl, unused, hfate⟩⟩

theorem mem_drops : id ∈ (sortPacks scan now store ix referenced).drops ↔
    ∃ pack, store.packs[id]? = some pack ∧
      (fate referenced (scan.locations ix.locations) now id pack = .doomed ∨
        ∃ needed, fate referenced (scan.locations ix.locations) now id pack = .repack needed) := by
  unfold Sorted.drops
  rw [List.mem_append, mem_doomed, List.mem_map]
  constructor
  · rintro (⟨pack, hpack, hfate⟩ | ⟨⟨other, pack, needed⟩, hmem, rfl⟩)
    · exact ⟨pack, hpack, .inl hfate⟩
    · obtain ⟨hpack, hfate⟩ := mem_repack.mp hmem
      exact ⟨pack, hpack, .inr ⟨needed, hfate⟩⟩
  · rintro ⟨pack, hpack, hfate | ⟨needed, hfate⟩⟩
    · exact .inl ⟨pack, hpack, hfate⟩
    · exact .inr ⟨(id, pack, needed), mem_repack.mpr ⟨hpack, hfate⟩, rfl⟩

theorem mem_scanned (h : Index.read store.indexes = .ok ix) :
    ⟨id, e⟩ ∈ scan.locations ix.locations ↔ ix.lookup e.id = some ⟨id, e⟩ := by
  rw [(scan.perm _).mem_iff, Index.mem_locations h]

end Fates

section Rewriting

variable {codec : BlobCodec} {draw : ℕ → ObjectId} {now : ℕ} {store after : PruneStore}
  {ix : Index} {drops : List ObjectId} {kept : List PackEntries} {packs : List NewPack}

structure Rewrote (draw : ℕ → ObjectId) (now : ℕ) (store : PruneStore) (drops : List ObjectId)
    (kept : List PackEntries) (packs : List NewPack) (after : PruneStore) : Prop where
  stays : ∀ id, id ∉ drops → (∀ p ∈ packs, draw p.drawn ≠ id) →
    after.packs[id]? = store.packs[id]?
  dropped : ∀ id ∈ drops, after.packs[id]? = none
  added : ∀ p ∈ packs, after.packs[draw p.drawn]? = some ⟨p.data, some now⟩
  readable : ∃ ix, Index.read after.indexes = .ok ix
  lists : ∀ l, Index.Lists after.indexes l ↔ ∃ p ∈ kept, l ∈ p.locations

structure NewIds (draw : ℕ → ObjectId) (store : PruneStore) (packs : List NewPack) : Prop where
  distinct : (packs.map fun p => draw p.drawn).Nodup
  pack : ∀ p ∈ packs, draw p.drawn ∉ store.packs
  listed : ∀ p ∈ packs, ∀ l, Index.Lists store.indexes l → l.packId ≠ draw p.drawn

theorem rewrote (hnew : NewIds draw store packs) (hix : Index.read store.indexes = .ok ix)
    (hdrops : ∀ id ∈ drops, id ∈ store.packs) (forget : List ObjectId) (next : ℕ)
    (hindex : kept ≠ [] → draw next ∉ store.indexes) :
    Rewrote draw now store drops kept packs (applyAll now store
      (forget.map Effect.deleteSnapshot ++ packs.map (NewPack.put draw) ++
        (if kept = [] then [] else [Effect.putIndex (draw next) kept]) ++
        ix.sources.map Effect.deleteIndex ++ drops.map Effect.deletePack)) := by
  rw [applyAll_append, applyAll_append, applyAll_append, applyAll_append]
  have hforgot := applyAll_forgets now store forget
  generalize applyAll now store (forget.map Effect.deleteSnapshot) = forgot at hforgot
  obtain ⟨hpacks, hindexes⟩ := hforgot
  have hputs := fun id => applyAll_puts draw now forgot id packs
  have hput := fun p (hp : p ∈ packs) => applyAll_put now forgot hnew.distinct hp
  generalize applyAll now forgot (packs.map (NewPack.put draw)) = copied at hputs hput
  have hindexed := fun id => applyAll_index now copied (draw next) id kept
  generalize applyAll now copied (if kept = [] then [] else [Effect.putIndex (draw next) kept]) =
    indexed at hindexed
  have hunindexed : applyAll now indexed (ix.sources.map Effect.deleteIndex) =
      { indexed with indexes := ix.sources.foldl Std.ExtTreeMap.erase indexed.indexes } :=
    applyAll_erases now Effect.deleteIndex (fun m => { indexed with indexes := m }) (fun _ _ => rfl)
      indexed.indexes ix.sources
  rw [hunindexed]
  generalize hsources : ix.sources.foldl Std.ExtTreeMap.erase indexed.indexes = indexes
  have hdropped : applyAll now { indexed with indexes } (drops.map Effect.deletePack) =
      { indexed with indexes, packs := drops.foldl Std.ExtTreeMap.erase indexed.packs } :=
    applyAll_erases now Effect.deletePack (fun m => { indexed with indexes, packs := m })
      (fun _ _ => rfl) indexed.packs drops
  rw [hdropped]
  subst hsources
  have hkeeps : ∀ id, id ∉ drops →
      (drops.foldl Std.ExtTreeMap.erase indexed.packs)[id]? = copied.packs[id]? := by
    intro id hid
    rw [getElem?_eraseAll, if_neg hid, (hindexed id).1]
  have hlisted : ∀ id, (ix.sources.foldl Std.ExtTreeMap.erase indexed.indexes)[id]? =
      if kept ≠ [] ∧ draw next = id then some (.ok kept) else none := by
    intro id
    rw [getElem?_eraseAll, (hindexed id).2, (hputs id).1, hindexes]
    by_cases hsource : id ∈ ix.sources
    · have hold : id ∈ store.indexes := (Index.read_sources hix).mp hsource
      rw [if_pos hsource, if_neg]
      rintro ⟨hkept, rfl⟩
      exact hindex hkept hold
    · have hnone : store.indexes[id]? = none :=
        Std.ExtTreeMap.getElem?_eq_none fun hold => hsource ((Index.read_sources hix).mpr hold)
      rw [if_neg hsource, hnone]
  refine ⟨?_, ?_, ?_, ?_, ?_⟩
  · intro id hid hne
    rw [hkeeps id hid, (hputs id).2 hne, hpacks]
  · intro id hid
    rw [getElem?_eraseAll, if_pos hid]
  · intro p hp
    rw [hkeeps _ fun hdrop => hnew.pack p hp (hdrops _ hdrop)]
    exact hput p hp
  · have hloaded : ∃ loaded, readObjects (ix.sources.foldl Std.ExtTreeMap.erase indexed.indexes) = .ok loaded := by
      apply readObjects_isOk
      intro id object hobject
      rw [hlisted] at hobject
      split_ifs at hobject
      cases hobject
      exact ⟨kept, rfl⟩
    obtain ⟨loaded, hloaded⟩ := hloaded
    exact ⟨_, by rw [Index.read, hloaded]; rfl⟩
  · intro l
    constructor
    · rintro ⟨id, listed, hobject, hl⟩
      rw [hlisted] at hobject
      split_ifs at hobject
      cases hobject
      exact hl
    · rintro ⟨p, hp, hl⟩
      refine ⟨draw next, kept, ?_, p, hp, hl⟩
      rw [hlisted, if_pos ⟨List.ne_nil_of_mem hp, rfl⟩]

end Rewriting

section Outcome

variable {codec : BlobCodec} {scan : Scan} {draw : ℕ → ObjectId} {now : ℕ}
  {store after : PruneStore} {ix : Index} {referenced forget : List ObjectId}
  {packs : List NewPack} {b : ObjectId} {p : Plan}

theorem plan_eq_ok : plan codec scan now store forget = .ok p ↔
    ∃ referenced, Examined codec store forget p.index referenced ∧
      p.sorted = sortPacks scan now store p.index referenced := by
  unfold plan
  constructor
  · intro h
    cases hix : Index.read store.indexes with
    | error e =>
        rw [hix] at h
        cases h
    | ok ix =>
        cases hsnapshots : listSnapshots store with
        | error e =>
            rw [hix, hsnapshots] at h
            cases h
        | ok snapshots =>
            rw [hix, hsnapshots] at h
            dsimp only [bind, Except.bind] at h
            split at h
            · cases h
            · next hknown =>
                cases hmarked : markAll codec store.packs ix
                    (snapshots.filter fun s => s.1 ∉ forget) with
                | error e =>
                    rw [hmarked] at h
                    cases h
                | ok referenced =>
                    rw [hmarked] at h
                    dsimp only at h
                    split at h
                    · cases h
                    · next hlisted =>
                        cases h
                        refine ⟨referenced, ⟨hix, ⟨snapshots, hsnapshots, ?_, hmarked⟩, ?_⟩, rfl⟩
                        · simpa using hknown
                        · simpa using hlisted
  · rintro ⟨referenced, ⟨hix, ⟨snapshots, hsnapshots, hknown, hmarked⟩, hlisted⟩, hsorted⟩
    have hfound : (forget.find? fun id => id ∉ snapshots.map Prod.fst) = none := by
      simpa using hknown
    obtain ⟨index, sorted⟩ := p
    dsimp only at hix hmarked hlisted hsorted
    have hmissing : (referenced.find? fun id => ¬ index.has id) = none := by
      simpa using hlisted
    rw [hix, hsnapshots]
    dsimp only [bind, Except.bind]
    rw [hfound]
    dsimp only
    rw [hmarked]
    dsimp only
    rw [hmissing, hsorted]

theorem resolves_iff (hix : Index.read store.indexes = .ok ix) :
    Resolves codec store b ↔ ∃ l, ix.lookup b = some l ∧ Stores codec store l := by
  constructor
  · rintro ⟨other, l, hother, hl, hstores⟩
    rw [hix] at hother
    cases hother
    exact ⟨l, hl, hstores⟩
  · rintro ⟨l, hl, hstores⟩
    exact ⟨ix, l, hix, hl, hstores⟩

theorem resolves_copied (hnew : NewIds draw store packs)
    (hix : Index.read store.indexes = .ok ix) (ids : List ObjectId) :
    Resolves codec (applyAll now store (ids.map Effect.deleteSnapshot ++
      packs.map (NewPack.put draw))) b ↔ ∃ l, ix.lookup b = some l ∧ Stores codec store l := by
  rw [applyAll_append]
  obtain ⟨hpacks, hindexes⟩ := applyAll_forgets now store ids
  generalize applyAll now store (ids.map Effect.deleteSnapshot) = forgot at hpacks hindexes
  have hread : Index.read (applyAll now forgot (packs.map (NewPack.put draw))).indexes =
      .ok ix := by
    rw [(applyAll_puts draw now forgot b packs).1, hindexes]
    exact hix
  rw [resolves_iff hread]
  refine exists_congr fun l => and_congr_right fun hl => ?_
  have hother : ∀ p ∈ packs, draw p.drawn ≠ l.packId :=
    fun p hp heq => hnew.listed p hp l (Index.read_lookup hix hl).2 heq.symm
  unfold Stores
  rw [(applyAll_puts draw now forgot l.packId packs).2 hother, hpacks]

def CopiedFrom (codec : BlobCodec) (s : Sorted) (e : Entry) : Prop :=
  ∃ packId pack needed, (packId, pack, needed) ∈ s.repack ∧ e ∈ needed ∧ Opens codec e pack.data

theorem mem_locations {p : PackEntries} {l : Location} :
    l ∈ p.locations ↔ l.packId = p.packId ∧ l.entry ∈ p.entries := by
  unfold PackEntries.locations
  rw [List.mem_map]
  constructor
  · rintro ⟨e, he, rfl⟩
    exact ⟨rfl, he⟩
  · rintro ⟨hid, he⟩
    exact ⟨l.entry, he, by rw [← hid]⟩

theorem kept_listed (hix : Index.read store.indexes = .ok ix) {p : PackEntries} {l : Location}
    (hp : p ∈ (sortPacks scan now store ix referenced).kept) (hl : l ∈ p.locations) :
    ix.lookup l.entry.id = some l ∧ l.packId ∉ (sortPacks scan now store ix referenced).drops ∧
      l.packId ∈ store.packs := by
  obtain ⟨packId, entries⟩ := p
  obtain ⟨pack, unused, hpack, hfate⟩ := mem_kept.mp hp
  obtain ⟨hid, he⟩ := mem_locations.mp hl
  obtain ⟨other, e⟩ := l
  obtain rfl : other = packId := hid
  refine ⟨(mem_scanned hix).mp ((fate_keep hfate).mp he), ?_, IdMap.mem_of_getElem? hpack⟩
  intro hdrop
  obtain ⟨found, hfound, hdropped⟩ := mem_drops.mp hdrop
  rw [hpack, Option.some.injEq] at hfound
  subst hfound
  rw [hfate] at hdropped
  obtain hdoomed | ⟨needed, hrepack⟩ := hdropped
  · cases hdoomed
  · cases hrepack

theorem copied_lookup (hix : Index.read store.indexes = .ok ix) {e : Entry}
    (h : CopiedFrom codec (sortPacks scan now store ix referenced) e) :
    e.id ∈ referenced ∧ ∃ l, ix.lookup e.id = some l ∧ Stores codec store l := by
  obtain ⟨packId, pack, needed, hmem, he, hopens⟩ := h
  obtain ⟨hpack, hfate⟩ := mem_repack.mp hmem
  obtain ⟨hlocation, hreferenced⟩ := (fate_repack hfate).mp he
  exact ⟨hreferenced, ⟨packId, e⟩, (mem_scanned hix).mp hlocation, pack, hpack, hopens⟩

theorem marked_listed (scan : Scan) (now : ℕ) (hix : Index.read store.indexes = .ok ix) {l : Location}
    (hl : ix.lookup b = some l) (hstores : Stores codec store l) (hb : b ∈ referenced) :
    (∃ entries, ⟨l.packId, entries⟩ ∈ (sortPacks scan now store ix referenced).kept ∧
        l.entry ∈ entries) ∨
      b ∈ (sortPacks scan now store ix referenced).repack.flatMap fun p =>
        p.2.2.map Entry.id := by
  obtain ⟨packId, e⟩ := l
  obtain ⟨hid, _⟩ := Index.read_lookup hix hl
  obtain rfl : e.id = b := hid
  obtain ⟨pack, hpack, _⟩ := hstores
  have hlocation : ⟨packId, e⟩ ∈ scan.locations ix.locations := (mem_scanned hix).mpr hl
  obtain ⟨needed, hfate⟩ | ⟨unused, entries, hfate⟩ := fate_needed now pack hlocation hb
  · right
    refine List.mem_flatMap.mpr ⟨(packId, pack, needed), mem_repack.mpr ⟨hpack, hfate⟩, ?_⟩
    exact List.mem_map_of_mem ((fate_repack hfate).mpr ⟨hlocation, hb⟩)
  · left
    exact ⟨entries, mem_kept.mpr ⟨pack, unused, hpack, hfate⟩, (fate_keep hfate).mpr hlocation⟩

/-- Behind the rewritten index a blob resolves exactly if the old index resolved it to a copy that can
be read, and it was marked or the copy's pack stays. -/
theorem resolves_rewrote (hnewIds : NewIds draw store packs) (hix : Index.read store.indexes = .ok ix)
    {s : Sorted} (hs : s = sortPacks scan now store ix referenced) {listings : List PackEntries}
    {next : ℕ} {copies : List Effect}
    (hcopied : Copied codec draw (CopiedFrom codec s)
      (s.repack.flatMap fun p => p.2.2.map Entry.id) packs (copies, .ok (listings, next)))
    (hafter : Rewrote draw now store s.drops (s.kept ++ listings) packs after) :
    Resolves codec after b ↔ ∃ l, ix.lookup b = some l ∧ Stores codec store l ∧
      (b ∈ referenced ∨ s.Keeps l.packId) := by
  subst hs
  obtain ⟨rfl, hall⟩ := hcopied.finished listings next rfl
  have hkept : ∀ l p, p ∈ (sortPacks scan now store ix referenced).kept → l ∈ p.locations →
      (Stores codec after l ↔ Stores codec store l) := by
    intro l p hp hl
    obtain ⟨_, hstays, hstored⟩ := kept_listed hix hp hl
    unfold Stores
    rw [hafter.stays l.packId hstays fun q hq heq => hnewIds.pack q hq (heq ▸ hstored)]
  have hnew : ∀ l p, p ∈ packs → l ∈ (p.listing draw).locations →
      Stores codec after l ∧ ∃ e, CopiedFrom codec (sortPacks scan now store ix referenced) e ∧
        e.id = l.entry.id := by
    intro l p hp hl
    obtain ⟨hid, he⟩ := mem_locations.mp hl
    obtain ⟨hopens, horiginal⟩ := hcopied.copies p hp l.entry he
    refine ⟨⟨⟨p.data, some now⟩, ?_, hopens⟩, horiginal⟩
    rw [hid]
    exact hafter.added p hp
  constructor
  · rintro ⟨other, l, hother, hl, hstores⟩
    obtain ⟨rfl, hlists⟩ := Index.read_lookup hother hl
    obtain ⟨p, hp, hlp⟩ := (hafter.lists l).mp hlists
    obtain hp | hp := List.mem_append.mp hp
    · refine ⟨l, (kept_listed hix hp hlp).1, (hkept l p hp hlp).mp hstores, .inr ⟨p, hp, ?_⟩⟩
      exact (mem_locations.mp hlp).1.symm
    · obtain ⟨q, hq, rfl⟩ := List.mem_map.mp hp
      obtain ⟨_, e, he, hid⟩ := hnew l q hq hlp
      obtain ⟨hreferenced, found, hfound, hfoundStores⟩ := copied_lookup hix he
      rw [hid] at hreferenced hfound
      exact ⟨found, hfound, hfoundStores, .inl hreferenced⟩
  · rintro ⟨l, hl, hstores, hspared⟩
    obtain ⟨hid, _⟩ := Index.read_lookup hix hl
    have hlisted : ∃ found, Index.Lists after.indexes found ∧ found.entry.id = b := by
      have hstays : ∀ entries, ⟨l.packId, entries⟩ ∈ (sortPacks scan now store ix referenced).kept →
          l.entry ∈ entries → ∃ found, Index.Lists after.indexes found ∧ found.entry.id = b := by
        intro entries hmem he
        refine ⟨l, (hafter.lists l).mpr ⟨_, List.mem_append_left _ hmem, ?_⟩, hid⟩
        exact mem_locations.mpr ⟨rfl, he⟩
      obtain hb | ⟨⟨packId, entries⟩, hp, hpid⟩ := hspared
      · obtain ⟨entries, hmem, he⟩ | hcopy := marked_listed scan now hix hl hstores hb
        · exact hstays entries hmem he
        · obtain ⟨p, hp, hpb⟩ := hall b hcopy
          obtain ⟨e, he, heb⟩ := List.mem_map.mp hpb
          refine ⟨⟨draw p.drawn, e⟩, (hafter.lists _).mpr ⟨p.listing draw, ?_, ?_⟩, heb⟩
          · exact List.mem_append_right _ (List.mem_map_of_mem hp)
          · exact mem_locations.mpr ⟨rfl, he⟩
      · obtain rfl : packId = l.packId := hpid
        obtain ⟨pack, unused, _, hfate⟩ := mem_kept.mp hp
        refine hstays entries hp ((fate_keep hfate).mpr ((mem_scanned hix).mpr ?_))
        rw [hid]
        exact hl
    obtain ⟨found, hfound, hfoundId⟩ := hlisted
    obtain ⟨other, hother⟩ := hafter.readable
    obtain ⟨first, hfirst⟩ := Index.read_lists hother hfound
    rw [hfoundId] at hfirst
    refine ⟨other, first, hother, hfirst, ?_⟩
    obtain ⟨hfirstId, hfirstLists⟩ := Index.read_lookup hother hfirst
    obtain ⟨p, hp, hlp⟩ := (hafter.lists first).mp hfirstLists
    obtain hp | hp := List.mem_append.mp hp
    · have hsame := (kept_listed hix hp hlp).1
      rw [hfirstId, hl, Option.some.injEq] at hsame
      subst hsame
      exact (hkept l p hp hlp).mpr hstores
    · obtain ⟨q, hq, rfl⟩ := List.mem_map.mp hp
      exact (hnew first q hq hlp).1

theorem examined_dedup : Examined codec store forget.dedup ix referenced ↔
    Examined codec store forget ix referenced := by
  constructor
  · rintro ⟨hix, ⟨snapshots, hsnapshots, hknown, hmarked⟩, hlisted⟩
    simp only [List.mem_dedup] at hknown hmarked
    exact ⟨hix, ⟨snapshots, hsnapshots, hknown, hmarked⟩, hlisted⟩
  · rintro ⟨hix, ⟨snapshots, hsnapshots, hknown, hmarked⟩, hlisted⟩
    refine ⟨hix, ⟨snapshots, hsnapshots, ?_, ?_⟩, hlisted⟩
    · simpa only [List.mem_dedup] using hknown
    · simpa only [List.mem_dedup] using hmarked

theorem Fresh.newIds {effects : List Effect} (h : Fresh store effects)
    (hputs : effects.filterMap Effect.packPut = packs.map fun p => draw p.drawn) :
    NewIds draw store packs := by
  obtain ⟨hdistinct, hpack, hlisted, _⟩ := h
  rw [hputs] at hdistinct hpack hlisted
  exact ⟨hdistinct, fun p hp => hpack _ (List.mem_map_of_mem hp),
    fun p hp => hlisted _ (List.mem_map_of_mem hp)⟩

theorem packPut_put : (packs.map (NewPack.put draw)).filterMap Effect.packPut =
    packs.map fun p => draw p.drawn := by
  induction packs with
  | nil => rfl
  | cons p packs ih =>
      have hp : (p.put draw).packPut = some (draw p.drawn) := rfl
      rw [List.map_cons, List.filterMap_cons_some hp, ih, List.map_cons]

theorem packPut_forgets (ids : List ObjectId) :
    (ids.map Effect.deleteSnapshot).filterMap Effect.packPut = [] := by
  simp [Effect.packPut]

theorem resolves_swept (hix : Index.read store.indexes = .ok ix) {s : Sorted}
    (hs : s = sortPacks scan now store ix referenced) (ids : List ObjectId)
    (hfresh : Fresh store (sweep codec draw ⟨ix, s⟩ ids).1) :
    Resolves codec (applyAll now store (sweep codec draw ⟨ix, s⟩ ids).1) b ↔
      ∃ l, ix.lookup b = some l ∧ Stores codec store l ∧
        (s.CopyFails codec draw ∨ s.drops = [] ∨ b ∈ referenced ∨ s.Keeps l.packId) := by
  have hsource : ∀ packId pack needed, (packId, pack, needed) ∈ s.repack → ∀ e ∈ needed,
      Opens codec e pack.data → CopiedFrom codec s e :=
    fun packId pack needed hmem e he hopens => ⟨packId, pack, needed, hmem, he, hopens⟩
  obtain ⟨packs, hcopied⟩ := copyAll_spec draw hsource 0
  unfold sweep at hfresh ⊢
  dsimp only at hfresh ⊢
  cases hresult : copyAll codec draw s.repack 0 with
  | mk copies result =>
      have hcopies : copies = packs.map (NewPack.put draw) := by
        rw [← hcopied.effects, hresult]
      subst hcopies
      rw [hresult] at hfresh
      have hputsOnly : (ids.map Effect.deleteSnapshot ++
          packs.map (NewPack.put draw)).filterMap Effect.packPut =
            packs.map fun p => draw p.drawn := by
        rw [List.filterMap_append, packPut_forgets, packPut_put, List.nil_append]
      cases result with
      | error e =>
          have hfails : s.CopyFails codec draw := ⟨e, by rw [hresult]⟩
          have hnew : NewIds draw store packs := hfresh.newIds hputsOnly
          rw [resolves_copied hnew hix]
          simp [hfails]
      | ok written =>
          obtain ⟨listings, next⟩ := written
          have hends : ¬ s.CopyFails codec draw := by
            rintro ⟨e, he⟩
            rw [hresult] at he
            cases he
          dsimp only at hfresh ⊢
          by_cases hdrops : s.doomed ++ s.repack.map Prod.fst = []
          · rw [if_pos hdrops] at hfresh ⊢
            have hnew : NewIds draw store packs := hfresh.newIds hputsOnly
            have hnone : s.drops = [] := hdrops
            rw [resolves_copied hnew hix]
            simp [hnone]
          · rw [if_neg hdrops] at hfresh ⊢
            have hnew : NewIds draw store packs := by
              refine hfresh.newIds ?_
              rw [List.filterMap_append, List.filterMap_append, List.filterMap_append, hputsOnly]
              split_ifs <;> simp [Effect.packPut]
            have hindex : s.kept ++ listings ≠ [] → draw next ∉ store.indexes := by
              intro hkept
              apply hfresh.index
              rw [if_neg hkept]
              simp [Effect.indexPut]
            have hstored : ∀ id ∈ s.drops, id ∈ store.packs := by
              intro id hid
              rw [hs] at hid
              obtain ⟨pack, hpack, _⟩ := mem_drops.mp hid
              exact IdMap.mem_of_getElem? hpack
            rw [hresult] at hcopied
            have hafter : Rewrote draw now store s.drops (s.kept ++ listings) packs _ :=
              rewrote hnew hix hstored ids next hindex
            refine (resolves_rewrote hnew hix hs hcopied hafter).trans ?_
            have hnonempty : s.drops ≠ [] := hdrops
            simp [hends, hnonempty]

theorem resolves_pruned {dryRun : Bool} (hexamined : Examined codec store forget ix referenced)
    (hfresh : Fresh store (pruneLocked codec scan draw now store forget dryRun).1) :
    Resolves codec (applyAll now store (pruneLocked codec scan draw now store forget dryRun).1) b ↔
      ∃ l, ix.lookup b = some l ∧ Stores codec store l ∧
        (dryRun = true ∨ (sortPacks scan now store ix referenced).CopyFails codec draw ∨
          (sortPacks scan now store ix referenced).drops = [] ∨ b ∈ referenced ∨
          (sortPacks scan now store ix referenced).Keeps l.packId) := by
  have hplan : plan codec scan now store forget.dedup =
      .ok ⟨ix, sortPacks scan now store ix referenced⟩ :=
    plan_eq_ok.mpr ⟨referenced, examined_dedup.mpr hexamined, rfl⟩
  unfold pruneLocked at hfresh ⊢
  dsimp only at hfresh ⊢
  rw [hplan] at hfresh ⊢
  dsimp only at hfresh ⊢
  cases dryRun with
  | true =>
      refine (resolves_iff hexamined.index).trans ?_
      simp
  | false =>
      refine (resolves_swept hexamined.index rfl forget.dedup hfresh).trans ?_
      simp

theorem refuses_of_not_examined {dryRun : Bool}
    (hnot : ¬ ∃ ix referenced, Examined codec store forget ix referenced) :
    Refuses (pruneLocked codec scan draw now store forget dryRun) := by
  unfold pruneLocked
  dsimp only
  cases hplan : plan codec scan now store forget.dedup with
  | error e => exact ⟨⟨e, rfl⟩, fun effect h => absurd h List.not_mem_nil⟩
  | ok p =>
      obtain ⟨referenced, hdedup, -⟩ := plan_eq_ok.mp hplan
      exact absurd ⟨p.index, referenced, examined_dedup.mp hdedup⟩ hnot

/-- A prune that does not refuse keeps a readable copy of every blob that is needed and has one only
where the first listing of each names such a copy; and there it does, if no chunk of a remaining file
has the id of a tree that a remaining snapshot reaches. -/
theorem prune_keeps_copies {dryRun : Bool}
    (hfresh : Fresh store (pruneLocked codec scan draw now store forget dryRun).1) :
    (KeepsCopies codec now store forget (pruneLocked codec scan draw now store forget dryRun) →
      Refuses (pruneLocked codec scan draw now store forget dryRun) ∨
        Foremost codec store forget) ∧
    (Apart codec store forget → Foremost codec store forget →
      KeepsCopies codec now store forget
        (pruneLocked codec scan draw now store forget dryRun)) := by
  by_cases hexamined : ∃ ix referenced, Examined codec store forget ix referenced
  · obtain ⟨ix, referenced, hexamined⟩ := hexamined
    constructor
    · refine Or.imp_right fun hkeeps b hneeded hsalvageable => ?_
      obtain ⟨l, hl, hstores, -⟩ :=
        (resolves_pruned hexamined hfresh).mp (hkeeps b hneeded hsalvageable)
      exact ⟨l, Index.lookup_first hexamined.index ▸ hl, hstores⟩
    · refine fun hapart hforemost => .inr fun b hneeded hsalvageable =>
        (resolves_pruned hexamined hfresh).mpr ?_
      obtain ⟨l, hl, hstores⟩ := hforemost b hneeded hsalvageable
      have hmarked : b ∈ referenced := marked_of_apart hapart hexamined hneeded
      exact ⟨l, (Index.lookup_first hexamined.index).trans hl, hstores,
        .inr (.inr (.inr (.inl hmarked)))⟩
  · have hrefuses : Refuses (pruneLocked codec scan draw now store forget dryRun) :=
      refuses_of_not_examined hexamined
    exact ⟨fun _ => .inl hrefuses, fun _ _ => .inl hrefuses⟩

theorem not_keepsCopies {outcome : List Effect × Except BackupError Report}
    (hok : outcome.2.isOk = true) (hneeded : Needed codec store forget b)
    (hsalvageable : Salvageable codec store b)
    (hnone : ((Index.read (applyAll now store outcome.1).indexes).toOption.map fun ix =>
      ix.lookup b) = some none) : ¬ KeepsCopies codec now store forget outcome := by
  rintro (⟨⟨e, he⟩, _⟩ | h)
  · rw [he] at hok
    cases hok
  · obtain ⟨ix, l, hix, hl, _⟩ := h b hneeded hsalvageable
    rw [hix] at hnone
    cases hl.symm.trans (Option.some.inj hnone)

end Outcome

namespace Examples

def codec : BlobCodec where
  opens _ _ _ _ _ := .ok ()
  treeOf id :=
    if id = 1 then .ok [.file [2]]
    else if id = 3 then .ok [.file [4], .dir 4]
    else if id = 4 then .ok [.file [2]]
    else .error (.format "tree")
  sealedHeader _ _ := [0]
  fetchError _ := "no such object"

def scan : Scan where
  locations l := l
  perm _ := .refl _

def draw (n : ℕ) : ObjectId := if n = 0 then 100 else 101

def entry (id : ObjectId) (offset : ℕ) : Entry := ⟨.data, .none, id, offset, 1, 1⟩

def packs (l : List (ObjectId × StoredPack)) : IdMap StoredPack :=
  l.foldl (fun m p => m.insert p.1 p.2) ∅

def indexes (l : List (ObjectId × List PackEntries)) :
    IdMap (Except BackupError (List PackEntries)) :=
  l.foldl (fun m p => m.insert p.1 (.ok p.2)) ∅

def snapshots (tree : ObjectId) : IdMap (Except BackupError StoredSnapshot) :=
  (∅ : IdMap (Except BackupError StoredSnapshot)).insert 30 (.ok ⟨0, tree⟩)

/-- A tree and its chunk in one pack, and an old pack that no index lists. -/
def healthy : PruneStore where
  packs := packs [(10, ⟨[1, 2], some 0⟩), (11, ⟨[3], some 0⟩)]
  indexes := indexes [(20, [⟨10, [entry 1 0, entry 2 1]⟩])]
  snapshots := snapshots 1

/-- The chunk is listed first in a pack that is missing, and then in one that is there. -/
def shadowed : PruneStore where
  packs := packs [(10, ⟨[1], some 0⟩), (11, ⟨[2], some 0⟩)]
  indexes := indexes [(20, [⟨10, [entry 1 0]⟩, ⟨12, [entry 2 0]⟩]), (21, [⟨11, [entry 2 0]⟩])]
  snapshots := snapshots 1

/-- A file whose only chunk has the id of the tree of the directory after it. -/
def twin : PruneStore where
  packs := packs [(10, ⟨[3, 4], some 0⟩), (11, ⟨[2], some 0⟩)]
  indexes := indexes [(20, [⟨10, [entry 3 0, entry 4 1]⟩, ⟨11, [entry 2 0]⟩])]
  snapshots := snapshots 3

def pruned (store : PruneStore) : List Effect × Except BackupError Report :=
  pruneLocked codec scan draw 10000000 store [] false

end Examples

open Examples in
/-- What is needed stays where it is whole, and an old pack that nothing lists goes. -/
theorem prune_keeps_copies_healthy : KeepsCopies codec 10000000 healthy [] (pruned healthy) := by
  have hputs : (pruned healthy).1.filterMap Effect.packPut = [] := by decide +kernel
  have hindex : (pruned healthy).1.filterMap Effect.indexPut = [100] := by decide +kernel
  have hfresh : Fresh healthy (pruned healthy).1 := by
    refine ⟨hputs ▸ List.nodup_nil, fun id hid => absurd (hputs ▸ hid) List.not_mem_nil,
      fun id hid => absurd (hputs ▸ hid) List.not_mem_nil, fun id hid => ?_⟩
    obtain rfl : id = 100 := List.mem_singleton.mp (hindex ▸ hid)
    decide +kernel
  have htree : ∀ b, TreeBeneath codec 1 b → b = 1 := by
    intro b hb
    induction hb with
    | here => rfl
    | step htree hnodes hmem ih =>
        subst ih
        cases hnodes
        simp at hmem
  have hsnapshot : ∀ (id : ObjectId) (s : StoredSnapshot), healthy.snapshots[id]? = some (.ok s) →
      s.tree = 1 := by
    intro id s hs
    have hentry : healthy.snapshots[id]? = if 30 = id then some (.ok ⟨0, 1⟩) else none :=
      IdMap.getElem?_insert
    rw [hentry] at hs
    split_ifs at hs
    cases hs
    rfl
  refine (prune_keeps_copies hfresh).2 ?_ ?_
  · rintro id other s s' b hs - hs' - ⟨tree, nodes, content, hbeneath, hnodes, hcontent, hb⟩ hsame
    rw [hsnapshot id s hs] at hbeneath
    rw [hsnapshot other s' hs'] at hsame
    obtain rfl := htree tree hbeneath
    obtain rfl := htree b hsame
    cases hnodes
    simp only [List.mem_singleton, TreeNode.file.injEq] at hcontent
    subst hcontent
    exact absurd (List.mem_singleton.mp hb) (by decide)
  · have hlistings : Index.listings healthy.indexes = [⟨10, entry 1 0⟩, ⟨10, entry 2 1⟩] := by
      decide +kernel
    have hpack : healthy.packs[(10 : ObjectId)]? = some ⟨[1, 2], some 0⟩ := by decide +kernel
    rintro b - ⟨l, ⟨id, listed, hobject, p, hp, hl⟩, rfl, -⟩
    have hmem : l ∈ Index.listings healthy.indexes :=
      List.mem_flatMap.mpr ⟨(id, .ok listed),
        Std.ExtTreeMap.mem_toList_iff_getElem?_eq_some.mpr hobject, List.mem_flatMap.mpr ⟨p, hp, hl⟩⟩
    rw [hlistings, List.mem_pair] at hmem
    rw [hlistings]
    obtain rfl | rfl := hmem
    · exact ⟨⟨10, entry 1 0⟩, by decide, _, hpack, [1], by decide, rfl⟩
    · exact ⟨⟨10, entry 2 1⟩, by decide, _, hpack, [2], by decide, rfl⟩

open Examples in
/-- The chunk's last copy is lost where the index resolved it to a missing pack, and where the walk
took its directory for one that it had been through. -/
theorem prune_loses_copies : ¬ KeepsCopies codec 10000000 shadowed [] (pruned shadowed) ∧
    ¬ KeepsCopies codec 10000000 twin [] (pruned twin) := by
  constructor
  · have hneeded : Needed codec shadowed [] 2 :=
      ⟨30, ⟨0, 1⟩, Std.ExtTreeMap.getElem?_insert_self, List.not_mem_nil,
        .inr ⟨1, [.file [2]], [2], .here, rfl, by simp, by simp⟩⟩
    have hlisted : Index.Lists shadowed.indexes ⟨11, entry 2 0⟩ :=
      ⟨21, _, Std.ExtTreeMap.getElem?_insert_self, _, List.mem_singleton_self _,
        List.mem_singleton_self _⟩
    have hpack : shadowed.packs[(11 : ObjectId)]? = some ⟨[2], some 0⟩ := by decide +kernel
    have hsalvageable : Salvageable codec shadowed 2 :=
      ⟨_, hlisted, rfl, _, hpack, [2], by decide, rfl⟩
    exact not_keepsCopies (by decide +kernel) hneeded hsalvageable (by decide +kernel)
  · have hdir : TreeBeneath codec 3 4 := .step .here rfl (by simp)
    have hneeded : Needed codec twin [] 2 :=
      ⟨30, ⟨0, 3⟩, Std.ExtTreeMap.getElem?_insert_self, List.not_mem_nil,
        .inr ⟨4, [.file [2]], [2], hdir, rfl, by simp, by simp⟩⟩
    have hlisted : Index.Lists twin.indexes ⟨11, entry 2 0⟩ :=
      ⟨20, _, Std.ExtTreeMap.getElem?_insert_self, ⟨11, [entry 2 0]⟩, by simp,
        List.mem_singleton_self _⟩
    have hpack : twin.packs[(11 : ObjectId)]? = some ⟨[2], some 0⟩ := by decide +kernel
    have hsalvageable : Salvageable codec twin 2 :=
      ⟨_, hlisted, rfl, _, hpack, [2], by decide, rfl⟩
    exact not_keepsCopies (by decide +kernel) hneeded hsalvageable (by decide +kernel)

end FileMirror.Prune
