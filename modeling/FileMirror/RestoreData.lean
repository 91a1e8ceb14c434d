import FileMirror.RestoreRun

set_option autoImplicit false

namespace FileMirror.Restore

open Attempts Disk FileMirror.Restorer PackFormat Patches Verify

namespace Restorer

variable {r : Restorer} {plan : FileMirror.Restorer.Plan} {d₀ d d' : Disk} {i : ℕ}
  {done : List (List String)} {v w : List String × TreeFormat.Node}
  {ws front back : List (List String × TreeFormat.Node)}

/-- Files that are replaced share an inode only if they are to share one. -/
def Distinct (r : Restorer) (plan : FileMirror.Restorer.Plan) (d₀ : Disk) : Prop :=
  r.overwrite = true → ∀ f ∈ plan.files, ∀ g ∈ plan.files, ∀ i,
    d₀.held (r.spot f.1) = some (.file i) → d₀.held (r.spot g.1) = some (.file i) →
      f.1 = g.1 ∨ SameFile f.2 g.2

/-- The files that are there by now, each with a new inode or the one that it had. -/
structure Owned (r : Restorer) (plan : FileMirror.Restorer.Plan) (d₀ : Disk)
    (ws : List (List String × TreeFormat.Node)) (d : Disk) : Prop where
  held : ∀ w ∈ ws, ∃ i, d.held (r.spotOf w.1) = some (.file i) ∧
    (d₀.next ≤ i ∨ r.overwrite = true ∧ d₀.held (r.spotOf w.1) = some (.file i))
  apart : r.Distinct plan d₀ → ∀ v ∈ ws, ∀ w ∈ ws, ∀ i, d.held (r.spotOf v.1) = some (.file i) →
    d.held (r.spotOf w.1) = some (.file i) → v = w

theorem Owned.congr (h : r.Owned plan d₀ ws d)
    (hbare : ∀ p, (d'.held p).map Held.bare = (d.held p).map Held.bare) : r.Owned plan d₀ ws d' := by
  have hsame : ∀ p i, d'.held p = some (.file i) ↔ d.held p = some (.file i) := fun p i => by
    rw [← bare_eq_file, hbare, bare_eq_file]
  refine ⟨fun w hw => ?_, fun hdistinct v hv w hw i hvi hwi => ?_⟩
  · obtain ⟨i, hi, hnew⟩ := h.held w hw
    exact ⟨i, (hsame _ i).mpr hi, hnew⟩
  · exact h.apart hdistinct v hv w hw i ((hsame _ i).mp hvi) ((hsame _ i).mp hwi)

structure Made (r : Restorer) (plan : FileMirror.Restorer.Plan) (d₀ : Disk)
    (ws : List (List String × TreeFormat.Node)) (d : Disk) : Prop extends r.Owned plan d₀ ws d where
  sized : r.Distinct plan d₀ → ∀ w ∈ ws, ∀ i, d.held (r.spotOf w.1) = some (.file i) →
    (d.inodes i).bytes.length = w.2.size

theorem exists_written (hw : w ∈ (r.split plan.files).toWrite) : ∃ f ∈ plan.files,
    w = (r.path f.1, f.2) ∧ r.spotOf w.1 = r.spot f.1 ∧
      f.1 ∈ plan.symlinks.map Prod.fst ++ plan.files.map Prod.fst := by
  obtain ⟨f, hf, rfl⟩ := (splits plan.files).wrote w hw
  exact ⟨f, hf, rfl, spotOf_path, List.mem_append_right _ (List.mem_map_of_mem hf)⟩

theorem Distinct.written (htree : Treelike plan) (h : r.Distinct plan d₀)
    (hsplit : (r.split plan.files).toWrite = front ++ w :: back) (hv : v ∈ front)
    (hover : r.overwrite = true) (hvi : d₀.held (r.spotOf v.1) = some (.file i)) :
    d₀.held (r.spotOf w.1) ≠ some (.file i) := by
  intro hwi
  have hvin : v ∈ (r.split plan.files).toWrite := by
    rw [hsplit]
    exact List.mem_append_left _ hv
  have hwin : w ∈ (r.split plan.files).toWrite := mem_of_split hsplit
  obtain ⟨f, hf, rfl, hvspot, -⟩ := exists_written hvin
  obtain ⟨g, hg, rfl, hwspot, -⟩ := exists_written hwin
  rw [hvspot] at hvi
  rw [hwspot] at hwi
  rcases h hover f hf g hg i hvi hwi with heq | hsame
  · have hnodup := spots_nodup (r := r) htree
    rw [writeSpots, hsplit, List.map_append, List.map_cons] at hnodup
    have hwrites := (List.nodup_append.mp (List.nodup_append.mp
      (List.nodup_append.mp hnodup).2.1).2.1).1
    refine (List.nodup_append.mp hwrites).2.2 _ (List.mem_map_of_mem hv) _ List.mem_cons_self ?_
    dsimp only
    rw [heq]
  · have hfirst := (splits (r := r) plan.files).first
    rw [hsplit] at hfirst
    exact (List.pairwise_append.mp hfirst).2.2 _ hv _ List.mem_cons_self hsame

theorem Owned.other (htree : Treelike plan) (h : r.Owned plan d₀ front d)
    (hdistinct : r.Distinct plan d₀)
    (hsplit : (r.split plan.files).toWrite = front ++ w :: back) (hv : v ∈ front)
    (hw : d₀.held (r.spotOf w.1) = some (.file i)) : d.held (r.spotOf v.1) ≠ some (.file i) := by
  intro hvi
  obtain ⟨j, hj, hvj⟩ := h.held v hv
  cases hj.symm.trans hvi
  rcases hvj with hle | ⟨hover, hv₀⟩
  · have hlt := d₀.fresh _ _ hw
    omega
  · exact hdistinct.written htree hsplit hv hover hv₀ hw

theorem Made.create (htree : Treelike plan) (h : r.Made plan d₀ front d)
    (hstand : r.Standing plan d₀ done d)
    (hsplit : (r.split plan.files).toWrite = front ++ w :: back)
    (hnot : r.spotOf w.1 ∉ done) (hfront : ∀ v ∈ front, r.spotOf v.1 ∈ done)
    (hcreated : r.Created (r.spotOf w.1) w.2.size d d') : r.Made plan d₀ (front ++ [w]) d' := by
  have hwin : w ∈ (r.split plan.files).toWrite := mem_of_split hsplit
  obtain ⟨f, hf, hwf, hspot, hleaf⟩ := exists_written hwin
  obtain ⟨ha, i, hheld, hbytes, hi⟩ := hcreated
  have hbefore : ∀ j, d.held (r.spotOf w.1) = some (.file j) →
      d₀.held (r.spotOf w.1) = some (.file j) := by
    rw [hspot] at hnot ⊢
    exact fun j => hstand.file_before (List.mem_append_right _ hleaf) hnot
  have hsame : ∀ v ∈ front, ∀ j, d'.held (r.spotOf v.1) = some (.file j) ↔
      d.held (r.spotOf v.1) = some (.file j) := by
    rw [hspot] at hnot ha
    exact fun v hv j => ha.file (hstand.leaf htree hleaf hnot _ (hfront v hv))
  have hnew : d₀.next ≤ i ∨ r.overwrite = true ∧ d₀.held (r.spotOf w.1) = some (.file i) :=
    hi.imp hstand.spares.next.trans fun h => ⟨h.1, hbefore i h.2⟩
  have hother : r.Distinct plan d₀ → ∀ v ∈ front, d.held (r.spotOf v.1) ≠ some (.file i) := by
    intro hdistinct v hv
    rcases hi with hfresh | ⟨-, hown⟩
    · intro hvi
      have hlt := d.fresh _ _ hvi
      omega
    · exact h.toOwned.other htree hdistinct hsplit hv (hbefore i hown)
  refine ⟨⟨?_, ?_⟩, ?_⟩
  · intro v hv
    rcases List.mem_append.mp hv with hv | hv
    · obtain ⟨j, hj, hvj⟩ := h.held v hv
      exact ⟨j, (hsame v hv j).mpr hj, hvj⟩
    · rw [List.mem_singleton.mp hv]
      exact ⟨i, hheld, hnew⟩
  · intro hdistinct u hu v hv j huj hvj
    rcases List.mem_append.mp hu with hu | hu
    · rcases List.mem_append.mp hv with hv | hv
      · exact h.apart hdistinct u hu v hv j ((hsame u hu j).mp huj) ((hsame v hv j).mp hvj)
      · rw [List.mem_singleton.mp hv] at hvj
        cases hheld.symm.trans hvj
        exact absurd ((hsame u hu i).mp huj) (hother hdistinct u hu)
    · rcases List.mem_append.mp hv with hv | hv
      · rw [List.mem_singleton.mp hu] at huj
        cases hheld.symm.trans huj
        exact absurd ((hsame v hv i).mp hvj) (hother hdistinct v hv)
      · rw [List.mem_singleton.mp hu, List.mem_singleton.mp hv]
  · intro hdistinct v hv j hvj
    rcases List.mem_append.mp hv with hv | hv
    · have hvd := (hsame v hv j).mp hvj
      rw [ha.inodes j (d.fresh _ _ hvd), h.sized hdistinct v hv j hvd]
      exact .inr fun hown => h.toOwned.other htree hdistinct hsplit hv (hbefore j hown) hvd
    · rw [List.mem_singleton.mp hv] at hvj ⊢
      cases hheld.symm.trans hvj
      rw [hbytes, List.length_replicate]

variable (htree : Treelike plan) (hreach : r.Reaches d₀)

include htree hreach

theorem runs_creates :
    Runs (r.Standing plan d₀ (r.dirSpots plan ++ r.linkSpots plan))
      ((r.split plan.files).toWrite.forM fun file => r.createFile file.1 file.2.size)
      (fun _ d => r.Standing plan d₀ (r.dirSpots plan ++ r.linkSpots plan ++ r.writeSpots plan) d ∧
        r.Made plan d₀ (r.split plan.files).toWrite d) (r.Ended plan d₀) := by
  refine runs_forM (fun front d => r.Standing plan d₀
    (r.dirSpots plan ++ r.linkSpots plan ++ front.map fun w => r.spotOf w.1) d ∧
      r.Made plan d₀ front d) ?_ ?_ ?_
  · intro d h
    rw [List.map_nil, List.append_nil]
    exact ⟨h, ⟨by simp, by simp⟩, by simp⟩
  · exact fun _ h => h
  rintro front w back hsplit d ⟨h, hmade⟩
  have hwin : w ∈ (r.split plan.files).toWrite := mem_of_split hsplit
  obtain ⟨f, hf, hwf, hspot, hleaf⟩ := exists_written hwin
  have hrel : f.1 ∈ rels plan := List.mem_append_right _ hleaf
  have hnot : r.spotOf w.1 ∉
      r.dirSpots plan ++ r.linkSpots plan ++ front.map fun w => r.spotOf w.1 := by
    have hnodup := spots_nodup (r := r) htree
    rw [← List.append_assoc, writeSpots, hsplit, List.map_append, List.map_cons] at hnodup
    exact not_mem_of_nodup hnodup
  have hnot' := hnot
  rw [hspot] at hnot'
  have hkeeps : r.Keeps w.1 (r.spotOf w.1) d := by
    rw [hspot, hwf]
    exact h.keeps_all htree hreach hrel fun dir hdir =>
      List.mem_append_left _ (List.mem_append_left _ (List.mem_map_of_mem hdir))
  have hin : r.resolvedTarget <+: (r.spotOf w.1).dropLast := by
    rw [hspot]
    exact htree.within hrel
  refine (runs_createFile hkeeps hin).weaken (fun _ h => h) ?_ ?_
  · intro _ d' hcreated
    refine ⟨?_, hmade.create htree h hsplit hnot ?_ hcreated⟩
    · rw [List.map_append, List.map_singleton, ← List.append_assoc, hspot]
      rw [hspot] at hcreated
      exact h.around_file htree hf hnot' (by simp) hcreated.1
    · exact fun v hv => List.mem_append_right _ (List.mem_map_of_mem hv)
  · intro d' hstop
    rw [hspot] at hstop
    refine h.ended hrel htree hstop fun hblocked => ⟨hblocked.1, .inr ⟨f.1, hleaf, ?_⟩⟩
    exact h.taken_before hrel hnot' hblocked.2

omit htree hreach

section Reads

variable {places : List (ObjectId × (ℕ × ℕ))} {packId chunk : ObjectId} {range : ℕ × ℕ} {l : Location}
  {as : List Atom} {a : Atom} {d₁ : Disk} {α : Type} {x : Metered ReadError α}

theorem runs_fromRead : Runs (· = d) (fromRead x) (fun a d' => d' = d ∧ x.result = .ok a)
    (fun d' => d' = d ∧ ∀ a, x.result ≠ .ok a) := by
  rintro w rfl
  unfold fromRead
  cases hread : x.result with
  | ok a => exact ⟨rfl, rfl⟩
  | error failure =>
      cases failure with
      | error e => exact ⟨rfl, by simp⟩
      | panicked => exact ⟨rfl, by simp⟩

theorem Ranged.fetch (hload : ∀ chunk destination, (chunk, destination) ∈ places →
      ∃ piece, (r.repo.loadBlob chunk).result = .ok piece)
    (h : Ranged r.repo places packId range) :
    ∃ data, r.repo.packs[packId]? = some data ∧ range.1 ≤ range.2 ∧ range.2 ≤ data.length := by
  obtain ⟨chunk, l, hrange, hend⟩ := h
  obtain ⟨destination, hplace⟩ := hrange.wanted
  obtain ⟨piece, hpiece⟩ := hload chunk destination hplace
  obtain ⟨l', data, hl', hdata, hlen, -⟩ := loadBlob_eq_ok.mp hpiece
  cases hrange.lookup.symm.trans hl'
  have hstart := hrange.start
  rw [hrange.pack] at hdata
  unfold Entry.end at hend hlen
  exact ⟨data, hdata, by omega, by omega⟩

def Works (r : Restorer) : Atom → Prop
  | .fetch packId range =>
      ∃ data, (r.repo.getRange packId range.1 (range.2 - range.1)).result = .ok data
  | .decode packId range e => ∃ piece, (r.blobIn packId range e).result = .ok piece
  | .write packId range e _ => ∃ piece, (r.blobIn packId range e).result = .ok piece

theorem Serves.works (h : Serves r.repo places a)
    (hload : ∀ chunk destination, (chunk, destination) ∈ places →
      ∃ piece, (r.repo.loadBlob chunk).result = .ok piece) : r.Works a := by
  have hblob : ∀ packId range e, Ranged r.repo places packId range →
      (∃ chunk l, InRange r.repo places packId range chunk l ∧ l.entry = e) →
        ∃ piece, (r.blobIn packId range e).result = .ok piece := by
    rintro packId range _ hranged ⟨chunk, l, hrange, rfl⟩
    obtain ⟨data, hdata, -, hlen⟩ := hranged.fetch hload
    obtain ⟨destination, hplace⟩ := hrange.wanted
    obtain ⟨piece, hpiece⟩ := hload chunk destination hplace
    exact ⟨piece, (blobIn_loads hrange).mpr ⟨hpiece, data, hdata, hlen⟩⟩
  cases a with
  | fetch packId range =>
      obtain ⟨data, hdata, hle, hlen⟩ := Ranged.fetch hload h
      exact ⟨_, getRange_eq_ok.mpr ⟨data, hdata, by omega, rfl⟩⟩
  | decode packId range e => exact hblob packId range e h.1 h.2
  | write packId range e destination =>
      obtain ⟨hranged, chunk, l, hrange, hentry, -⟩ := h
      exact hblob packId range e hranged ⟨chunk, l, hrange, hentry⟩

def Patched (r : Restorer) (ws : List (List String × TreeFormat.Node)) (a : Atom) (d d' : Disk) :
    Prop :=
  (d' = d ∧ ∀ file, r.patch file a = none) ∨
    ∃ file w i offset piece, ws[file]? = some w ∧ d.held (r.spotOf w.1) = some (.file i) ∧
      Alters (r.spotOf w.1) d d' ∧
      (d'.inodes i).bytes = Patches.writeAt 0 (d.inodes i).bytes offset piece ∧
      ∀ other, r.patch other a = if other = file then some (offset, piece) else none

theorem runs_perform (hserve : Serves r.repo (filePlaces r.repo 0 ws) a)
    (hleads : ∀ w ∈ ws, d.Leads w.1 (r.spotOf w.1))
    (hheld : ∀ w ∈ ws, ∃ i, d.held (r.spotOf w.1) = some (.file i)) :
    Runs (· = d) (r.perform (ws.map Prod.fst) a) (fun _ d' => r.Works a ∧ r.Patched ws a d d')
      (fun d' => (d' = d ∨ ∃ w ∈ ws, Alters (r.spotOf w.1) d d') ∧ (¬ r.Works a ∨ r.Faulty)) := by
  cases a with
  | fetch packId range =>
      unfold perform
      refine runs_bind (runs_fromRead.weaken (fun _ h => h) (fun _ _ h => h) ?_) ?_
      · rintro d' ⟨rfl, hfails⟩
        exact ⟨.inl rfl, .inl fun h => h.elim hfails⟩
      · rintro data _ ⟨rfl, hdata⟩
        exact runs_pure ⟨⟨data, hdata⟩, .inl ⟨rfl, fun _ => rfl⟩⟩
  | decode packId range e =>
      unfold perform
      refine runs_bind (runs_fromRead.weaken (fun _ h => h) (fun _ _ h => h) ?_) ?_
      · rintro d' ⟨rfl, hfails⟩
        exact ⟨.inl rfl, .inl fun h => h.elim hfails⟩
      · rintro piece _ ⟨rfl, hpiece⟩
        exact runs_pure ⟨⟨piece, hpiece⟩, .inl ⟨rfl, fun _ => rfl⟩⟩
  | write packId range e destination =>
      obtain ⟨-, chunk, l, hrange, hentry, hplace⟩ := hserve
      obtain ⟨w, -, hw, -⟩ := mem_filePlaces.mp hplace
      rw [Nat.sub_zero] at hw
      have hwin := List.mem_of_getElem? hw
      obtain ⟨i, hi⟩ := hheld w hwin
      unfold perform
      refine runs_bind (runs_fromRead.weaken (fun _ h => h) (fun _ _ h => h) ?_) ?_
      · rintro d' ⟨rfl, hfails⟩
        exact ⟨.inl rfl, .inl fun h => h.elim hfails⟩
      rintro piece _ ⟨rfl, hpiece⟩
      have hpath : (ws.map Prod.fst)[destination.1]? = some w.1 := by
        rw [List.getElem?_map, hw, Option.map_some]
      rw [hpath]
      refine (runs_writeAt (hleads w hwin) hi).weaken (fun _ h => h) ?_ ?_
      · rintro _ d' ⟨ha, hbytes⟩
        refine ⟨⟨piece, hpiece⟩, .inr ⟨_, w, i, _, piece, hw, hi, ha, hbytes, fun other => ?_⟩⟩
        unfold patch
        dsimp only
        rw [hpiece]
        simp only [eq_comm]
        rfl
      · rintro d' ⟨ha, hr⟩
        exact ⟨.inr ⟨w, hwin, ha⟩, .inr hr⟩

end Reads

structure Filled (r : Restorer) (plan : FileMirror.Restorer.Plan) (d₀ : Disk)
    (ws : List (List String × TreeFormat.Node)) (d : Disk) : Prop extends r.Owned plan d₀ ws d where
  contents : r.Distinct plan d₀ → ∀ w ∈ ws, ∀ i, d.held (r.spotOf w.1) = some (.file i) →
    ∃ pieces, Pieces r.repo w.2.content pieces ∧ (d.inodes i).bytes = pieces.flatten ∧
      pieces.flatten.length = w.2.size

def Applied (r : Restorer) (ws : List (List String × TreeFormat.Node)) (as : List Atom)
    (d₁ d : Disk) : Prop :=
  ∀ file w i, ws[file]? = some w → d₁.held (r.spotOf w.1) = some (.file i) →
    (d.inodes i).bytes =
      (as.filterMap (r.patch file)).foldl (fun bytes p => Patches.writeAt 0 bytes p.1 p.2)
        (d₁.inodes i).bytes

theorem Applied.step {as : List Atom} {a : Atom} {d₁ : Disk} (h : r.Applied ws as d₁ d)
    (hbare : ∀ p, (d.held p).map Held.bare = (d₁.held p).map Held.bare)
    (hapart : ∀ v ∈ ws, ∀ w ∈ ws, ∀ i, d₁.held (r.spotOf v.1) = some (.file i) →
      d₁.held (r.spotOf w.1) = some (.file i) → v = w)
    (hnodup : ws.Nodup) (hpatched : r.Patched ws a d d') : r.Applied ws (as ++ [a]) d₁ d' := by
  intro file w i hw hi
  have hbefore := h file w i hw hi
  rw [List.filterMap_append, List.foldl_append, ← hbefore]
  rcases hpatched with ⟨rfl, hnone⟩ | ⟨other, v, j, offset, piece, hv, hj, ha, hbytes, hpatch⟩
  · rw [List.filterMap_cons, hnone file, List.filterMap_nil, List.foldl_nil]
  · rw [List.filterMap_cons, hpatch file, List.filterMap_nil]
    have hj₁ : d₁.held (r.spotOf v.1) = some (.file j) := by
      rwa [← bare_eq_file, ← hbare, bare_eq_file]
    split_ifs with hsame
    · subst hsame
      cases hw.symm.trans hv
      cases hi.symm.trans hj₁
      exact hbytes
    · rw [List.foldl_nil, ha.inodes i]
      intro hvi
      cases hj.symm.trans hvi
      cases hapart v (List.mem_of_getElem? hv) w (List.mem_of_getElem? hw) i hj₁ hi
      have hlt := (List.getElem?_eq_some_iff.mp hw).1
      exact hsame ((List.getElem?_inj hlt hnodup).mp (hw.trans hv.symm))

theorem Applied.contents {as : List Atom} {d₁ : Disk} (h : r.Applied ws as d₁ d)
    (hserve : ∀ a ∈ as, Serves r.repo (filePlaces r.repo 0 ws) a)
    (hcomplete : ∀ chunk destination, (chunk, destination) ∈ filePlaces r.repo 0 ws →
      ∃ l range, r.repo.index.lookup chunk = some l ∧
        Atom.write l.packId range l.entry destination ∈ as)
    (hworks : ∀ a ∈ as, r.Works a) (hw : w ∈ ws) (hwhole : FileWhole r.repo w.2)
    (hi : d₁.held (r.spotOf w.1) = some (.file i)) (hsized : (d₁.inodes i).bytes.length = w.2.size) :
    ∃ pieces, Pieces r.repo w.2.content pieces ∧ (d.inodes i).bytes = pieces.flatten ∧
      pieces.flatten.length = w.2.size := by
  obtain ⟨file, hfile⟩ := List.mem_iff_getElem?.mp hw
  obtain ⟨pieces, hpieces⟩ : ∃ pieces, Pieces r.repo w.2.content pieces := by
    refine exists_pieces fun chunk hchunk => ?_
    obtain ⟨⟨number, offset⟩, hin⟩ := @exists_place r.repo chunk file 0 w.2.content hchunk
    have hplace : (chunk, number, offset) ∈ filePlaces r.repo 0 ws := by
      obtain rfl : number = file := (mem_chunkPlaces hin).2
      exact mem_filePlaces.mpr ⟨w, Nat.zero_le _, hfile, hin⟩
    obtain ⟨l, range, hl, ha⟩ := hcomplete _ _ hplace
    obtain ⟨piece, hpiece⟩ := hworks _ ha
    obtain ⟨-, chunk', l', hrange, hentry, -⟩ := hserve _ ha
    rw [← hentry] at hpiece
    have hsame : chunk' = chunk := by
      rw [← (Index.read_lookup r.repo.opened hrange.lookup).1, hentry,
        (Index.read_lookup r.repo.opened hl).1]
    exact ⟨piece, hsame ▸ ((blobIn_loads hrange).mp hpiece).1⟩
  have hlength : pieces.flatten.length = w.2.size := hpieces.length.trans hwhole.size
  refine ⟨pieces, hpieces, ?_, hlength⟩
  rw [h file w i hfile hi]
  exact writes_content hfile hpieces hserve hcomplete (fun _ _ _ _ ha => hworks _ ha)
    (hsized.trans hlength.symm)

theorem unreadable_of_not_works {a : Atom}
    (hserve : Serves r.repo (filePlaces r.repo 0 (r.split plan.files).toWrite) a)
    (hnot : ¬ r.Works a) : ∃ file ∈ plan.files, ¬ Readable r.repo file.2 := by
  by_contra hnone
  push Not at hnone
  refine hnot (hserve.works fun chunk destination hplace => ?_)
  obtain ⟨w, -, hw, hin⟩ := mem_filePlaces.mp hplace
  obtain ⟨f, hf, rfl, -⟩ := exists_written (List.mem_of_getElem? hw)
  exact (hnone f hf).2 chunk (mem_chunkPlaces hin).1

include htree hreach

theorem runs_read {a : Atom} (hdirs : r.dirSpots plan ⊆ done)
    (hserve : Serves r.repo (filePlaces r.repo 0 (r.split plan.files).toWrite) a)
    (h : r.Standing plan d₀ done d) (howned : r.Owned plan d₀ (r.split plan.files).toWrite d) :
    Runs (· = d) (r.perform ((r.split plan.files).toWrite.map Prod.fst) a)
      (fun _ d' => (r.Standing plan d₀ done d' ∧
        ∀ p, (d'.held p).map Held.bare = (d.held p).map Held.bare) ∧ r.Works a ∧
          r.Patched (r.split plan.files).toWrite a d d')
      (fun d' => (r.Standing plan d₀ done d' ∧
        ∀ p, (d'.held p).map Held.bare = (d.held p).map Held.bare) ∧ r.Hindered plan d₀) := by
  have hheld : ∀ w ∈ (r.split plan.files).toWrite, ∃ i, d.held (r.spotOf w.1) = some (.file i) := by
    intro w hw
    obtain ⟨i, hi, -⟩ := howned.held w hw
    exact ⟨i, hi⟩
  have hleads : ∀ w ∈ (r.split plan.files).toWrite, d.Leads w.1 (r.spotOf w.1) := by
    intro w hw
    obtain ⟨f, hf, rfl, hspot, hleaf⟩ := exists_written hw
    rw [hspot]
    exact h.keeps_all htree hreach (List.mem_append_right _ hleaf)
      (fun dir hdir => hdirs (List.mem_map_of_mem hdir)) d .refl
  have halters : ∀ w ∈ (r.split plan.files).toWrite, ∀ d', Alters (r.spotOf w.1) d d' →
      r.Standing plan d₀ done d' ∧ ∀ p, (d'.held p).map Held.bare = (d.held p).map Held.bare := by
    intro w hw d' hd'
    refine ⟨?_, hd'.bare_all⟩
    obtain ⟨i, hi, hnew⟩ := howned.held w hw
    obtain ⟨f, hf, -, hspot, hleaf⟩ := exists_written hw
    rw [hspot] at hi hd'
    refine h.alters (List.mem_append_right _ hleaf) (fun j hj => ?_) hd'
    cases hi.symm.trans hj
    exact hnew.imp_right And.left
  refine (runs_perform hserve hleads hheld).weaken (fun _ h => h) ?_ ?_
  · rintro _ d' ⟨hworks, hpatched⟩
    refine ⟨?_, hworks, hpatched⟩
    rcases hpatched with ⟨rfl, -⟩ | ⟨_, w, _, _, _, hw, -, hd', -⟩
    · exact ⟨h, fun _ => rfl⟩
    · exact halters w (List.mem_of_getElem? hw) d' hd'
  · rintro d' ⟨hd', hreason⟩
    refine ⟨?_, ?_⟩
    · rcases hd' with rfl | ⟨w, hw, hd'⟩
      · exact ⟨h, fun _ => rfl⟩
      · exact halters w hw d' hd'
    · rcases hreason with hnot | hr
      · exact .inr (.inr (unreadable_of_not_works hserve hnot))
      · exact .inl hr

theorem runs_reads (s : Schedule) {byPack : IdMap (IdMap BlobRead)} {d₁ : Disk}
    (hcollected : Collected r.repo (filePlaces r.repo 0 (r.split plan.files).toWrite) byPack)
    (hwhole : ∀ w ∈ (r.split plan.files).toWrite, FileWhole r.repo w.2)
    (hdirs : r.dirSpots plan ⊆ done) (hstand : r.Standing plan d₀ done d₁)
    (hmade : r.Made plan d₀ (r.split plan.files).toWrite d₁) :
    Runs (· = d₁) (tryCollect s.late (r.perform ((r.split plan.files).toWrite.map Prod.fst))
        (s.order (byPack.toList.map readPack)))
      (fun _ d => r.Standing plan d₀ done d ∧ r.Filled plan d₀ (r.split plan.files).toWrite d)
      (r.Ended plan d₀) := by
  have hatoms : ∀ a, a ∈ s.order (byPack.toList.map readPack) ↔
      a ∈ (byPack.toList.map readPack).flatten := fun a =>
    (s.interleaved (byPack.toList.map readPack)).perm.mem_iff
  have hserve : ∀ a ∈ s.order (byPack.toList.map readPack),
      Serves r.repo (filePlaces r.repo 0 (r.split plan.files).toWrite) a := fun a ha =>
    atoms_serve hcollected ((hatoms a).mp ha)
  have hcomplete : ∀ chunk destination,
      (chunk, destination) ∈ filePlaces r.repo 0 (r.split plan.files).toWrite →
        ∃ l range, r.repo.index.lookup chunk = some l ∧
          Atom.write l.packId range l.entry destination ∈ s.order (byPack.toList.map readPack) := by
    intro chunk destination hplace
    obtain ⟨l, range, hl, ha⟩ := atoms_complete hcollected hplace
    exact ⟨l, range, hl, (hatoms _).mpr ha⟩
  have hnodup : (r.split plan.files).toWrite.Nodup := by
    have hall := spots_nodup (r := r) htree
    have hwrites := (List.nodup_append.mp (List.nodup_append.mp
      (List.nodup_append.mp hall).2.1).2.1).1
    exact List.Nodup.of_map _ hwrites
  have hstep : ∀ a ∈ s.order (byPack.toList.map readPack), ∀ d, r.Standing plan d₀ done d →
      (∀ p, (d.held p).map Held.bare = (d₁.held p).map Held.bare) →
      Runs (· = d) (r.perform ((r.split plan.files).toWrite.map Prod.fst) a)
        (fun _ d' => (r.Standing plan d₀ done d' ∧
          ∀ p, (d'.held p).map Held.bare = (d₁.held p).map Held.bare) ∧ r.Works a ∧
            r.Patched (r.split plan.files).toWrite a d d')
        (fun d' => (r.Standing plan d₀ done d' ∧
          ∀ p, (d'.held p).map Held.bare = (d₁.held p).map Held.bare) ∧ r.Hindered plan d₀) := by
    intro a ha d h hbare
    refine (runs_read htree hreach hdirs (hserve a ha) h (hmade.toOwned.congr hbare)).weaken
      (fun _ h => h) ?_ ?_
    · exact fun _ d' h' => ⟨⟨h'.1.1, fun p => (h'.1.2 p).trans (hbare p)⟩, h'.2⟩
    · exact fun d' h' => ⟨⟨h'.1.1, fun p => (h'.1.2 p).trans (hbare p)⟩, h'.2⟩
  refine runs_tryCollect (F := fun d => (r.Standing plan d₀ done d ∧
      ∀ p, (d.held p).map Held.bare = (d₁.held p).map Held.bare) ∧ r.Hindered plan d₀)
    (fun front d => (r.Standing plan d₀ done d ∧
      ∀ p, (d.held p).map Held.bare = (d₁.held p).map Held.bare) ∧ (∀ a ∈ front, r.Works a) ∧
        (r.Distinct plan d₀ → r.Applied (r.split plan.files).toWrite front d₁ d))
    s.among ?_ ?_ ?_ ?_ ?_
  · rintro d rfl
    exact ⟨⟨hstand, fun _ => rfl⟩, by simp, fun _ _ _ _ _ _ => rfl⟩
  · rintro d ⟨⟨h, hbare⟩, hworks, happlied⟩
    refine ⟨h, ⟨hmade.toOwned.congr hbare, fun hdistinct w hw i hi => ?_⟩⟩
    have hi₁ : d₁.held (r.spotOf w.1) = some (.file i) := by
      rwa [← bare_eq_file, ← hbare, bare_eq_file]
    exact (happlied hdistinct).contents hserve hcomplete hworks hw (hwhole w hw) hi₁
      (hmade.sized hdistinct w hw i hi₁)
  · rintro d ⟨⟨h, -⟩, hreason⟩
    exact ⟨h.spares, hreason⟩
  · rintro front a back has d ⟨⟨h, hbare⟩, hworks, happlied⟩
    have ha : a ∈ s.order (byPack.toList.map readPack) := mem_of_split has
    refine (hstep a ha d h hbare).weaken (fun _ h => h) ?_ fun _ h => h
    rintro _ d' ⟨hkept, hwork, hpatched⟩
    refine ⟨hkept, ?_, fun hdistinct => ?_⟩
    · exact List.forall_mem_append.mpr ⟨hworks, List.forall_mem_singleton.mpr hwork⟩
    · exact (happlied hdistinct).step hbare (hmade.apart hdistinct) hnodup hpatched
  · rintro a ha d ⟨⟨h, hbare⟩, hreason⟩
    exact (hstep a ha d h hbare).weaken (fun _ h => h) (fun _ _ h => ⟨h.1, hreason⟩) fun _ h => h

end Restorer

end FileMirror.Restore
