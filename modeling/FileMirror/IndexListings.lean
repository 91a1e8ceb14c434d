import FileMirror.Prune

set_option autoImplicit false

namespace FileMirror

theorem mapM_eq_ok {α β ε : Type} {f : α → Except ε β} {l : List α} {bs : List β} :
    l.mapM f = .ok bs ↔ List.Forall₂ (fun a b => f a = .ok b) l bs := by
  induction l generalizing bs with
  | nil =>
      rw [List.mapM_nil]
      constructor
      · rintro ⟨⟩
        exact .nil
      · rintro ⟨⟩
        rfl
  | cons a l ih =>
      rw [List.mapM_cons]
      constructor
      · intro h
        cases ha : f a with
        | error e =>
            rw [ha] at h
            cases h
        | ok b =>
            cases hl : l.mapM f with
            | error e =>
                rw [ha, hl] at h
                cases h
            | ok rest =>
                rw [ha, hl] at h
                cases h
                exact .cons ha (ih.mp hl)
      · rintro (_ | ⟨ha, hrest⟩)
        rw [ha, ih.mpr hrest]
        rfl

section ReadObjects

variable {β : Type} {objects : IdMap (Except BackupError β)} {loaded : List (ObjectId × β)}
  {id : ObjectId} {b : β}

theorem readObjects_eq_ok (h : readObjects objects = .ok loaded) :
    List.Forall₂ (fun object read => object.1 = read.1 ∧ object.2 = .ok read.2) objects.toList
      loaded := by
  refine (mapM_eq_ok.mp h).imp ?_
  rintro ⟨id, object⟩ ⟨other, b⟩ hread
  cases object with
  | error e => cases hread
  | ok c =>
      cases hread
      exact ⟨rfl, rfl⟩

theorem mem_readObjects (h : readObjects objects = .ok loaded) :
    (id, b) ∈ loaded ↔ objects[id]? = some (.ok b) := by
  have hlist : ∀ {l : List (ObjectId × Except BackupError β)} {loaded : List (ObjectId × β)},
      List.Forall₂ (fun object read => object.1 = read.1 ∧ object.2 = .ok read.2) l loaded →
        ((id, b) ∈ loaded ↔ (id, Except.ok b) ∈ l) := by
    intro l loaded hforall
    induction hforall with
    | nil => simp
    | cons hhead _ ih =>
        obtain ⟨hid, hread⟩ := hhead
        rw [List.mem_cons, List.mem_cons, ih, Prod.ext_iff, Prod.ext_iff, hid, hread,
          Except.ok.injEq]
  rw [hlist (readObjects_eq_ok h)]
  exact Std.ExtTreeMap.mem_toList_iff_getElem?_eq_some

theorem readObjects_ids (h : readObjects objects = .ok loaded) :
    loaded.map Prod.fst = objects.toList.map Prod.fst := by
  have hlist := readObjects_eq_ok h
  clear h
  generalize objects.toList = l at hlist
  induction hlist with
  | nil => rfl
  | cons hhead _ ih => rw [List.map_cons, List.map_cons, ih, hhead.1]

theorem readObjects_isOk (h : ∀ (id : ObjectId) (object : Except BackupError β),
    objects[id]? = some object → ∃ b, object = .ok b) : ∃ loaded, readObjects objects = .ok loaded := by
  have hlist : ∀ l : List (ObjectId × Except BackupError β),
      (∀ object ∈ l, ∃ b, object.2 = .ok b) → ∃ loaded : List (ObjectId × β),
        List.Forall₂ (fun object read =>
          (fun o : ObjectId × Except BackupError β => o.2.map (Prod.mk o.1)) object = .ok read)
          l loaded := by
    intro l
    induction l with
    | nil => exact fun _ => ⟨[], .nil⟩
    | cons object l ih =>
        intro hall
        obtain ⟨hobject, hrest⟩ := List.forall_mem_cons.mp hall
        obtain ⟨b, hb⟩ := hobject
        obtain ⟨loaded, hloaded⟩ := ih hrest
        refine ⟨(object.1, b) :: loaded, .cons ?_ hloaded⟩
        dsimp only
        rw [hb]
        rfl
  obtain ⟨loaded, hloaded⟩ := hlist objects.toList fun object hobject =>
    h object.1 object.2 (Std.ExtTreeMap.mem_toList_iff_getElem?_eq_some.mp hobject)
  exact ⟨loaded, mapM_eq_ok.mpr hloaded⟩

theorem readObjects_singleton (id : ObjectId) (b : β) :
    readObjects ((∅ : IdMap (Except BackupError β)).insert id (.ok b)) = .ok [(id, b)] := by
  generalize hmap : (∅ : IdMap (Except BackupError β)).insert id (.ok b) = map
  have hlen : map.toList.length = 1 := by
    rw [Std.ExtTreeMap.length_toList, ← hmap, Std.ExtTreeMap.size_insert]
    simp
  obtain ⟨object, hobject⟩ := List.length_eq_one_iff.mp hlen
  have hmem : (id, Except.ok b) ∈ map.toList := by
    rw [Std.ExtTreeMap.mem_toList_iff_getElem?_eq_some, ← hmap]
    simp
  rw [hobject, List.mem_singleton] at hmem
  unfold readObjects
  rw [hobject, ← hmem]
  rfl

end ReadObjects

def PackEntries.locations (p : PackEntries) : List Location := p.entries.map (Location.mk p.packId)

namespace Index

variable {ix : Index} {packs : List PackEntries} {p : PackEntries} {b id : ObjectId}
  {l : Location} {loaded : List (ObjectId × List PackEntries)}

theorem lookup_addPack : (ix.addPack p).lookup b =
    (ix.lookup b).or (p.locations.find? fun l => l.entry.id = b) := by
  have hfold : ∀ (entries : List Entry) (blobs : IdMap Location),
      (entries.foldl (fun blobs e => blobs.insertIfNew e.id ⟨p.packId, e⟩) blobs)[b]? =
        (blobs[b]?).or ((entries.map (Location.mk p.packId)).find? fun l => l.entry.id = b) := by
    intro entries
    induction entries with
    | nil => intro blobs; simp
    | cons e entries ih =>
        intro blobs
        rw [List.foldl_cons, ih, Std.ExtTreeMap.getElem?_insertIfNew, List.map_cons,
          List.find?_cons]
        simp only [Std.compare_eq_iff_eq]
        by_cases hb : e.id = b
        · subst hb
          obtain hnone | ⟨l, hl⟩ := Option.eq_none_or_eq_some blobs[e.id]?
          · have hnot : e.id ∉ blobs := by
              intro hmem
              rw [Std.ExtTreeMap.mem_iff_isSome_getElem?, hnone] at hmem
              cases hmem
            rw [if_pos ⟨rfl, hnot⟩, hnone]
            simp
          · have hmem : e.id ∈ blobs := IdMap.mem_of_getElem? hl
            rw [if_neg fun h => h.2 hmem, hl]
            rfl
        · rw [if_neg fun h => hb h.1]
          simp [hb]
  exact hfold p.entries ix.blobs

theorem lookup_addPacks : (packs.foldl addPack ix).lookup b =
    (ix.lookup b).or ((packs.flatMap PackEntries.locations).find? fun l => l.entry.id = b) := by
  induction packs generalizing ix with
  | nil => simp
  | cons p packs ih =>
      rw [List.foldl_cons, ih, lookup_addPack, List.flatMap_cons, List.find?_append, Option.or_assoc]

theorem lookup_addObjects : (loaded.foldl addObject ix).lookup b =
    (ix.lookup b).or ((loaded.flatMap fun object =>
      object.2.flatMap PackEntries.locations).find? fun l => l.entry.id = b) := by
  induction loaded generalizing ix with
  | nil => simp
  | cons object loaded ih =>
      have hobject : (ix.addObject object).lookup b = (object.2.foldl addPack ix).lookup b := rfl
      rw [List.foldl_cons, ih, hobject, lookup_addPacks, List.flatMap_cons, List.find?_append,
        Option.or_assoc]

theorem sources_addObjects :
    (loaded.foldl addObject ix).sources = ix.sources ++ loaded.map Prod.fst := by
  induction loaded generalizing ix with
  | nil => simp
  | cons object loaded ih =>
      have hpacks : ∀ (packs : List PackEntries) (ix : Index),
          (packs.foldl addPack ix).sources = ix.sources := by
        intro packs
        induction packs with
        | nil => exact fun ix => rfl
        | cons p packs ih => exact fun ix => (ih (ix.addPack p)).trans rfl
      have hobject : (ix.addObject object).sources = ix.sources ++ [object.1] := by
        rw [addObject, hpacks]
      rw [List.foldl_cons, ih, hobject, List.map_cons, List.append_assoc]
      rfl

variable {objects : IdMap (Except BackupError (List PackEntries))}

def Lists (objects : IdMap (Except BackupError (List PackEntries))) (l : Location) : Prop :=
  ∃ (id : ObjectId) (packs : List PackEntries), objects[id]? = some (.ok packs) ∧
    ∃ p ∈ packs, l ∈ p.locations

theorem read_eq_ok (h : Index.read objects = .ok ix) :
    ∃ loaded, readObjects objects = .ok loaded ∧ ix = loaded.foldl addObject new := by
  unfold Index.read at h
  cases hloaded : readObjects objects with
  | error e =>
      rw [hloaded] at h
      cases h
  | ok loaded =>
      rw [hloaded] at h
      cases h
      exact ⟨loaded, rfl, rfl⟩

theorem mem_listings (h : readObjects objects = .ok loaded) :
    l ∈ (loaded.flatMap fun object => object.2.flatMap PackEntries.locations) ↔
      Lists objects l := by
  rw [List.mem_flatMap]
  constructor
  · rintro ⟨⟨id, packs⟩, hmem, hl⟩
    obtain ⟨p, hp, hlp⟩ := List.mem_flatMap.mp hl
    exact ⟨id, packs, (mem_readObjects h).mp hmem, p, hp, hlp⟩
  · rintro ⟨id, packs, hobject, p, hp, hlp⟩
    exact ⟨(id, packs), (mem_readObjects h).mpr hobject, List.mem_flatMap.mpr ⟨p, hp, hlp⟩⟩

theorem lookup_read :
    (loaded.foldl addObject new).lookup b = (loaded.flatMap fun object =>
      object.2.flatMap PackEntries.locations).find? fun l => l.entry.id = b := by
  have hnew : new.lookup b = none := Std.ExtTreeMap.getElem?_empty
  rw [lookup_addObjects, hnew, Option.none_or]

/-- All listings, in the order in which `index::load` comes to them. -/
def listings (objects : IdMap (Except BackupError (List PackEntries))) : List Location :=
  objects.toList.flatMap fun object => (object.2.toOption.getD []).flatMap PackEntries.locations

theorem listings_loaded (h : readObjects objects = .ok loaded) :
    listings objects = loaded.flatMap fun object => object.2.flatMap PackEntries.locations := by
  have hlist := readObjects_eq_ok h
  unfold listings
  clear h
  generalize objects.toList = l at hlist
  induction hlist with
  | nil => rfl
  | cons hhead _ ih =>
      rw [List.flatMap_cons, List.flatMap_cons, ih, hhead.2]
      rfl

theorem lookup_first (h : Index.read objects = .ok ix) :
    ix.lookup b = (listings objects).find? fun l => l.entry.id = b := by
  obtain ⟨loaded, hloaded, rfl⟩ := read_eq_ok h
  rw [lookup_read, listings_loaded hloaded]

theorem read_lookup (h : Index.read objects = .ok ix) (hl : ix.lookup b = some l) :
    l.entry.id = b ∧ Lists objects l := by
  obtain ⟨loaded, hloaded, rfl⟩ := read_eq_ok h
  rw [lookup_read] at hl
  constructor
  · simpa using List.find?_some hl
  · exact (mem_listings hloaded).mp (List.mem_of_find?_eq_some hl)

theorem read_lists (h : Index.read objects = .ok ix) (hl : Lists objects l) :
    ∃ first, ix.lookup l.entry.id = some first := by
  obtain ⟨loaded, hloaded, rfl⟩ := read_eq_ok h
  rw [lookup_read, ← Option.isSome_iff_exists, List.find?_isSome]
  exact ⟨l, (mem_listings hloaded).mpr hl, by simp⟩

theorem mem_locations (h : Index.read objects = .ok ix) :
    l ∈ ix.locations ↔ ix.lookup l.entry.id = some l := by
  rw [locations, List.mem_map]
  constructor
  · rintro ⟨⟨id, other⟩, hmem, rfl⟩
    have hlookup : ix.lookup id = some other :=
      Std.ExtTreeMap.mem_toList_iff_getElem?_eq_some.mp hmem
    rw [(read_lookup h hlookup).1]
    exact hlookup
  · intro hl
    exact ⟨(l.entry.id, l), Std.ExtTreeMap.mem_toList_iff_getElem?_eq_some.mpr hl, rfl⟩

theorem read_sources (h : Index.read objects = .ok ix) : id ∈ ix.sources ↔ id ∈ objects := by
  obtain ⟨loaded, hloaded, rfl⟩ := read_eq_ok h
  rw [sources_addObjects, readObjects_ids hloaded, Std.ExtTreeMap.map_fst_toList_eq_keys,
    ← Std.ExtTreeMap.mem_keys]
  rfl

def Filed (ix : Index) : Prop := ∀ b l, ix.lookup b = some l → l.packId ∈ ix.packs

theorem Filed.addPack (h : ix.Filed) : (ix.addPack p).Filed := by
  intro b l hl
  rw [lookup_addPack] at hl
  refine Std.ExtTreeMap.mem_insert.mpr ?_
  rcases Option.or_eq_some_iff.mp hl with hold | ⟨-, hnew⟩
  · exact .inr (h b l hold)
  · obtain ⟨e, -, rfl⟩ := List.mem_map.mp (List.mem_of_find?_eq_some hnew)
    exact .inl (Std.compare_eq_iff_eq.mpr rfl)

theorem Filed.addPacks (h : ix.Filed) : (packs.foldl Index.addPack ix).Filed := by
  induction packs generalizing ix with
  | nil => exact h
  | cons p packs ih => exact ih h.addPack

theorem Filed.addObjects (h : ix.Filed) : (loaded.foldl addObject ix).Filed := by
  induction loaded generalizing ix with
  | nil => exact h
  | cons object loaded ih =>
      have hpacks : (object.2.foldl Index.addPack ix).Filed := h.addPacks
      exact ih fun b l hl => hpacks b l hl

theorem filed_read (h : Index.read objects = .ok ix) : ix.Filed := by
  obtain ⟨loaded, -, rfl⟩ := read_eq_ok h
  refine Filed.addObjects fun b l hl => ?_
  have hnew : new.lookup b = none := Std.ExtTreeMap.getElem?_empty
  rw [hnew] at hl
  cases hl

end Index

end FileMirror
