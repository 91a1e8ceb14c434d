import FileMirror.RestorePlans
import FileMirror.Restore
import FileMirror.VerifySound

set_option autoImplicit false

namespace FileMirror.Restore

open FileMirror.Restorer PackFormat Patches Verify

namespace Restorer

variable {r : Restorer}

section Splits

def SameFile (a b : TreeFormat.Node) : Prop :=
  isHardlink a = true ∧ isHardlink b = true ∧ (a.device, a.inode) = (b.device, b.inode)

structure Splits (r : Restorer) (files : List (String × TreeFormat.Node)) (s : Split) : Prop where
  found : ∀ key path, s.firstOfInode.lookup key = some path → ∃ g ∈ files,
    isHardlink g.2 = true ∧ (g.2.device, g.2.inode) = key ∧ path = r.path g.1 ∧
      (r.path g.1, g.2) ∈ s.toWrite
  missing : ∀ w ∈ s.toWrite, isHardlink w.2 = true →
    s.firstOfInode.lookup (w.2.device, w.2.inode) ≠ none
  wrote : ∀ w ∈ s.toWrite, ∃ f ∈ files, w = (r.path f.1, f.2)
  linked : ∀ l ∈ s.links, ∃ g ∈ files, ∃ f ∈ files, l = (r.path g.1, r.path f.1) ∧
    (r.path g.1, g.2) ∈ s.toWrite ∧ SameFile f.2 g.2
  each : ∀ f ∈ files, (r.path f.1, f.2) ∈ s.toWrite ∨ ∃ g ∈ files, (r.path g.1, g.2) ∈ s.toWrite ∧
    SameFile f.2 g.2 ∧ (r.path g.1, r.path f.1) ∈ s.links
  first : s.toWrite.Pairwise fun v w => ¬ SameFile v.2 w.2
  perm : (s.toWrite.map Prod.fst ++ s.links.map Prod.snd).Perm (files.map fun f => r.path f.1)

variable {files : List (String × TreeFormat.Node)} {s : Split} {f : String × TreeFormat.Node}

theorem Splits.write (h : r.Splits files s) {known : List ((ℕ × ℕ) × List String)}
    (hnew : isHardlink f.2 = true → s.firstOfInode.lookup (f.2.device, f.2.inode) = none)
    (hknown : known = if isHardlink f.2 = true then
      ((f.2.device, f.2.inode), r.path f.1) :: s.firstOfInode else s.firstOfInode) :
    r.Splits (files ++ [f]) ⟨known, s.toWrite ++ [(r.path f.1, f.2)], s.links⟩ := by
  have hlookup : ∀ key path, known.lookup key = some path →
      (isHardlink f.2 = true ∧ (f.2.device, f.2.inode) = key ∧ path = r.path f.1) ∨
        s.firstOfInode.lookup key = some path := by
    intro key path hpath
    rw [hknown] at hpath
    split_ifs at hpath with hlink
    · rw [List.lookup_cons] at hpath
      split at hpath
      · next heq =>
          cases hpath
          exact .inl ⟨hlink, (beq_iff_eq.mp heq).symm, rfl⟩
      · exact .inr hpath
    · exact .inr hpath
  have hstill : ∀ key, s.firstOfInode.lookup key ≠ none → known.lookup key ≠ none := by
    intro key hkey
    rw [hknown]
    split_ifs
    · rw [List.lookup_cons]
      split
      · exact Option.some_ne_none _
      · exact hkey
    · exact hkey
  refine ⟨?_, ?_, ?_, ?_, ?_, ?_, ?_⟩
  · intro key path hpath
    rcases hlookup key path hpath with ⟨hlink, hkey, rfl⟩ | hbefore
    · exact ⟨f, by simp, hlink, hkey, rfl, by simp⟩
    · obtain ⟨g, hg, hlink, hkey, rfl, hw⟩ := h.found key path hbefore
      exact ⟨g, List.mem_append_left _ hg, hlink, hkey, rfl, List.mem_append_left _ hw⟩
  · intro w hw hlink
    rcases List.mem_append.mp hw with hw | hw
    · exact hstill _ (h.missing w hw hlink)
    · rw [List.mem_singleton.mp hw] at hlink ⊢
      rw [hknown, if_pos hlink, List.lookup_cons_self]
      exact Option.some_ne_none _
  · intro w hw
    rcases List.mem_append.mp hw with hw | hw
    · obtain ⟨g, hg, rfl⟩ := h.wrote w hw
      exact ⟨g, List.mem_append_left _ hg, rfl⟩
    · exact ⟨f, by simp, List.mem_singleton.mp hw⟩
  · intro l hl
    obtain ⟨g, hg, f', hf', rfl, hw, hsame⟩ := h.linked l hl
    exact ⟨g, List.mem_append_left _ hg, f', List.mem_append_left _ hf', rfl,
      List.mem_append_left _ hw, hsame⟩
  · intro f' hf'
    rcases List.mem_append.mp hf' with hf' | hf'
    · rcases h.each f' hf' with hw | ⟨g, hg, hw, hsame, hl⟩
      · exact .inl (List.mem_append_left _ hw)
      · exact .inr ⟨g, List.mem_append_left _ hg, List.mem_append_left _ hw, hsame, hl⟩
    · rw [List.mem_singleton.mp hf']
      exact .inl (by simp)
  · refine List.pairwise_append.mpr ⟨h.first, List.pairwise_singleton _ _, ?_⟩
    intro v hv w hw hsame
    rw [List.mem_singleton.mp hw] at hsame
    refine h.missing v hv hsame.1 ?_
    rw [hsame.2.2]
    exact hnew hsame.2.1
  · dsimp only
    rw [List.map_append, List.map_append, List.append_assoc]
    refine .trans ?_ (h.perm.append_right _)
    rw [List.append_assoc]
    exact List.perm_append_comm.append_left _

theorem Splits.link (h : r.Splits files s) {existing : List String} (hlink : isHardlink f.2 = true)
    (hfound : s.firstOfInode.lookup (f.2.device, f.2.inode) = some existing) :
    r.Splits (files ++ [f]) { s with links := s.links ++ [(existing, r.path f.1)] } := by
  obtain ⟨g, hg, hglink, hkey, rfl, hw⟩ := h.found _ _ hfound
  have hsame : SameFile f.2 g.2 := ⟨hlink, hglink, hkey.symm⟩
  refine ⟨?_, h.missing, ?_, ?_, ?_, h.first, ?_⟩
  · intro key path hpath
    obtain ⟨g', hg', hrest⟩ := h.found key path hpath
    exact ⟨g', List.mem_append_left _ hg', hrest⟩
  · intro w hw
    obtain ⟨g', hg', rfl⟩ := h.wrote w hw
    exact ⟨g', List.mem_append_left _ hg', rfl⟩
  · intro l hl
    rcases List.mem_append.mp hl with hl | hl
    · obtain ⟨g', hg', f', hf', rfl, hw', hsame'⟩ := h.linked l hl
      exact ⟨g', List.mem_append_left _ hg', f', List.mem_append_left _ hf', rfl, hw', hsame'⟩
    · rw [List.mem_singleton.mp hl]
      exact ⟨g, List.mem_append_left _ hg, f, by simp, rfl, hw, hsame⟩
  · intro f' hf'
    rcases List.mem_append.mp hf' with hf' | hf'
    · rcases h.each f' hf' with hw' | ⟨g', hg', hw', hsame', hl⟩
      · exact .inl hw'
      · exact .inr ⟨g', List.mem_append_left _ hg', hw', hsame', List.mem_append_left _ hl⟩
    · rw [List.mem_singleton.mp hf']
      exact .inr ⟨g, List.mem_append_left _ hg, hw, hsame, by simp⟩
  · dsimp only
    rw [List.map_append, List.map_append, ← List.append_assoc]
    exact h.perm.append_right _

theorem splits (files : List (String × TreeFormat.Node)) : r.Splits files (r.split files) := by
  unfold split
  induction files using List.reverseRecOn with
  | nil =>
      exact ⟨by simp, by simp, by simp, by simp, by simp, .nil, .nil⟩
  | append_singleton files f ih =>
      rw [List.foldl_append, List.foldl_cons, List.foldl_nil]
      generalize files.foldl r.splitOne ⟨[], [], []⟩ = s at ih
      unfold splitOne
      dsimp only
      split_ifs with hlink
      · split
        · next existing hfound => exact ih.link hlink hfound
        · next hnone => exact ih.write (fun _ => hnone) (by rw [if_pos hlink])
      · exact ih.write (fun h => absurd h hlink) (by rw [if_neg hlink])

end Splits

section Places

variable {repo : Verify.Repository} {places : List (ObjectId × (ℕ × ℕ))}
  {byPack : IdMap (IdMap BlobRead)} {chunk packId : ObjectId} {destination : ℕ × ℕ} {l : Location}
  {file offset : ℕ} {path : List String}

def chunkPlaces (repo : Verify.Repository) (file : ℕ) :
    List ObjectId → ℕ → List (ObjectId × (ℕ × ℕ))
  | [], _ => []
  | chunk :: rest, offset =>
      (chunk, file, offset) :: chunkPlaces repo file rest (offset + chunkLength repo chunk)

def filePlaces (repo : Verify.Repository) :
    ℕ → List (List String × TreeFormat.Node) → List (ObjectId × (ℕ × ℕ))
  | _, [] => []
  | file, (_, node) :: rest =>
      chunkPlaces repo file node.content 0 ++ filePlaces repo (file + 1) rest

def readOf (byPack : IdMap (IdMap BlobRead)) (packId chunk : ObjectId) : Option BlobRead :=
  byPack[packId]?.bind fun blobs => blobs[chunk]?

theorem readOf_addDestination {other : ObjectId} :
    readOf (addDestination byPack l chunk destination) packId other =
      if packId = l.packId ∧ other = chunk then
        some { (readOf byPack l.packId chunk).getD ⟨l.entry, []⟩ with
          destinations := ((readOf byPack l.packId chunk).getD ⟨l.entry, []⟩).destinations ++
            [destination] }
      else readOf byPack packId other := by
  unfold readOf addDestination
  rw [IdMap.getElem?_insert]
  by_cases hpack : l.packId = packId
  · subst hpack
    rw [if_pos rfl, Option.bind_some, IdMap.getElem?_insert]
    by_cases hchunk : chunk = other
    · subst hchunk
      rw [if_pos rfl, if_pos ⟨rfl, rfl⟩]
      cases byPack[l.packId]? with
      | none => simp
      | some blobs => simp
    · rw [if_neg hchunk, if_neg fun h => hchunk h.2.symm]
      cases byPack[l.packId]? with
      | none => simp
      | some blobs => simp
  · rw [if_neg hpack, if_neg fun h => hpack h.1.symm]

structure Collected (repo : Verify.Repository) (places : List (ObjectId × (ℕ × ℕ)))
    (byPack : IdMap (IdMap BlobRead)) : Prop where
  sound : ∀ packId chunk read, readOf byPack packId chunk = some read →
    ∃ l, repo.index.lookup chunk = some l ∧ l.packId = packId ∧ read.entry = l.entry ∧
      read.destinations ≠ [] ∧ ∀ destination ∈ read.destinations, (chunk, destination) ∈ places
  present : ∀ chunk destination, (chunk, destination) ∈ places → ∃ l read,
    repo.index.lookup chunk = some l ∧ readOf byPack l.packId chunk = some read ∧
      destination ∈ read.destinations

theorem collected_nil : Collected repo [] ∅ := by
  refine ⟨fun packId chunk read h => ?_, by simp⟩
  simp [readOf] at h

theorem collected_step (h : Collected repo places byPack) (hl : repo.index.lookup chunk = some l) :
    Collected repo (places ++ [(chunk, destination)])
      (addDestination byPack l chunk destination) := by
  constructor
  · intro packId other read hread
    rw [readOf_addDestination] at hread
    split_ifs at hread with hsame
    · obtain ⟨rfl, rfl⟩ := hsame
      cases hread
      refine ⟨l, hl, rfl, ?_, by simp, ?_⟩
      · cases hbefore : readOf byPack l.packId other with
        | none => rfl
        | some before =>
            obtain ⟨l', hl', -, hentry, -⟩ := h.sound _ _ _ hbefore
            cases hl.symm.trans hl'
            exact hentry
      · intro place hplace
        rcases List.mem_append.mp hplace with hplace | hplace
        · cases hbefore : readOf byPack l.packId other with
          | none =>
              rw [hbefore] at hplace
              cases hplace
          | some before =>
              rw [hbefore] at hplace
              obtain ⟨-, -, -, -, -, hdestinations⟩ := h.sound _ _ _ hbefore
              exact List.mem_append_left _ (hdestinations place hplace)
        · rw [List.mem_singleton.mp hplace]
          simp
    · obtain ⟨l', hl', hpack, hentry, hne, hdestinations⟩ := h.sound _ _ _ hread
      exact ⟨l', hl', hpack, hentry, hne, fun place hplace =>
        List.mem_append_left _ (hdestinations place hplace)⟩
  · intro other place hplace
    rcases List.mem_append.mp hplace with hplace | hplace
    · obtain ⟨l', read, hl', hread, hin⟩ := h.present _ _ hplace
      refine ⟨l', ?_⟩
      rw [readOf_addDestination]
      split_ifs with hsame
      · obtain ⟨hpack, rfl⟩ := hsame
        cases hl.symm.trans hl'
        exact ⟨_, hl, rfl, by simp [hread, hin]⟩
      · exact ⟨read, hl', hread, hin⟩
    · cases List.mem_singleton.mp hplace
      refine ⟨l, _, hl, readOf_addDestination.trans (if_pos ⟨rfl, rfl⟩), ?_⟩
      simp

theorem collectChunks_spec {content : List ObjectId} (h : Collected repo places byPack)
    (hrepo : r.repo = repo) :
    (∃ chunk ∈ content, repo.index.lookup chunk = none ∧
      ∃ e, r.collectChunks path file content offset byPack = .error e) ∨
    ∃ byPack', (∀ chunk ∈ content, (repo.index.lookup chunk).isSome) ∧
      r.collectChunks path file content offset byPack =
        .ok (offset + (content.map (chunkLength repo)).sum, byPack') ∧
      Collected repo (places ++ chunkPlaces repo file content offset) byPack' := by
  induction content generalizing offset places byPack with
  | nil => exact .inr ⟨byPack, by simp, rfl, by rwa [chunkPlaces, List.append_nil]⟩
  | cons chunk rest ih =>
      rw [collectChunks, hrepo]
      cases hlookup : repo.index.lookup chunk with
      | none => exact .inl ⟨chunk, List.mem_cons_self, hlookup, _, rfl⟩
      | some l =>
          have hlength : chunkLength repo chunk = l.entry.plainLength := by
            rw [chunkLength, hlookup, Option.elim_some]
          have hstep := @collected_step repo places byPack chunk (file, offset) l h hlookup
          rcases ih hstep with ⟨other, hother, hnone, e, he⟩ | ⟨byPack', hlisted, hok, hall⟩
          · exact .inl ⟨other, List.mem_cons_of_mem _ hother, hnone, e, he⟩
          · refine .inr ⟨byPack', ?_, ?_, ?_⟩
            · exact List.forall_mem_cons.mpr ⟨by rw [hlookup]; rfl, hlisted⟩
            · dsimp only
              rw [hok, List.map_cons, List.sum_cons, hlength, Nat.add_assoc]
            · rw [chunkPlaces, hlength]
              rwa [List.append_assoc] at hall

theorem collectFiles_spec {files : List (List String × TreeFormat.Node)}
    (h : Collected repo places byPack) (hrepo : r.repo = repo) :
    (∃ f ∈ files, ¬ FileWhole repo f.2 ∧ ∃ e, r.collectFiles file files byPack = .error e) ∨
    ∃ byPack', (∀ f ∈ files, FileWhole repo f.2) ∧ r.collectFiles file files byPack = .ok byPack' ∧
      Collected repo (places ++ filePlaces repo file files) byPack' := by
  induction files generalizing file places byPack with
  | nil => exact .inr ⟨byPack, by simp, rfl, by rwa [filePlaces, List.append_nil]⟩
  | cons f rest ih =>
      obtain ⟨path, node⟩ := f
      rw [collectFiles]
      rcases @collectChunks_spec r repo places byPack file 0 path node.content h hrepo with
        ⟨chunk, hchunk, hnone, e, he⟩ | ⟨between, hlisted, hok, hbetween⟩
      · refine .inl ⟨(path, node), List.mem_cons_self, fun hwhole => ?_, e, by rw [he]⟩
        have hsome := hwhole.listed chunk hchunk
        rw [hnone] at hsome
        cases hsome
      · rw [hok, Nat.zero_add]
        dsimp only
        split_ifs with hsize
        · exact .inl ⟨(path, node), List.mem_cons_self, fun hwhole => hsize hwhole.size, _, rfl⟩
        · rcases ih hbetween with ⟨g, hg, hnot, herror⟩ | ⟨byPack', hwhole, hrest, hall⟩
          · exact .inl ⟨g, List.mem_cons_of_mem _ hg, hnot, herror⟩
          · refine .inr ⟨byPack', ?_, hrest, ?_⟩
            · exact List.forall_mem_cons.mpr ⟨⟨hlisted, not_not.mp hsize⟩, hwhole⟩
            · rw [filePlaces]
              rwa [List.append_assoc] at hall

end Places

section Atoms

variable {repo : Verify.Repository} {places : List (ObjectId × (ℕ × ℕ))}
  {byPack : IdMap (IdMap BlobRead)} {chunk packId : ObjectId} {destination range : ℕ × ℕ}
  {l : Location} {e : Entry} {group : List BlobRead} {plaintext : List UInt8}

structure InRange (repo : Verify.Repository) (places : List (ObjectId × (ℕ × ℕ)))
    (packId : ObjectId) (range : ℕ × ℕ) (chunk : ObjectId) (l : Location) : Prop where
  lookup : repo.index.lookup chunk = some l
  pack : l.packId = packId
  wanted : ∃ destination, (chunk, destination) ∈ places
  start : range.1 ≤ l.entry.offset
  stop : l.entry.end ≤ range.2

def Ranged (repo : Verify.Repository) (places : List (ObjectId × (ℕ × ℕ))) (packId : ObjectId)
    (range : ℕ × ℕ) : Prop :=
  ∃ chunk l, InRange repo places packId range chunk l ∧ l.entry.end = range.2

def Serves (repo : Verify.Repository) (places : List (ObjectId × (ℕ × ℕ))) : Atom → Prop
  | .fetch packId range => Ranged repo places packId range
  | .decode packId range e => Ranged repo places packId range ∧
      ∃ chunk l, InRange repo places packId range chunk l ∧ l.entry = e
  | .write packId range e destination => Ranged repo places packId range ∧
      ∃ chunk l, InRange repo places packId range chunk l ∧ l.entry = e ∧
        (chunk, destination) ∈ places

theorem foldl_max_mem (ends : List ℕ) (start : ℕ) :
    ends.foldl max start = start ∨ ends.foldl max start ∈ ends := by
  induction ends generalizing start with
  | nil => exact .inl rfl
  | cons n ends ih =>
      rw [List.foldl_cons]
      rcases ih (max start n) with hstart | hmem
      · rcases max_choice start n with hmax | hmax
        · exact .inl (hstart.trans hmax)
        · exact .inr (List.mem_cons.mpr (.inl (hstart.trans hmax)))
      · exact .inr (List.mem_cons_of_mem _ hmem)

theorem groupRange_ends (hne : group ≠ []) : ∃ read ∈ group, read.entry.end = (groupRange group).2 := by
  rcases foldl_max_mem (group.map fun read => read.entry.end) 0 with hzero | hmem
  · obtain ⟨read, hread⟩ := List.exists_mem_of_ne_nil group hne
    have hle := (le_foldl_max (group.map fun read => read.entry.end) 0).2 _
      (List.mem_map_of_mem (f := fun read : BlobRead => read.entry.end) hread)
    refine ⟨read, hread, ?_⟩
    unfold groupRange
    dsimp only at hle ⊢
    omega
  · obtain ⟨read, hread, hend⟩ := List.mem_map.mp hmem
    exact ⟨read, hread, hend⟩

theorem mem_packReads {blobs : IdMap BlobRead} {read : BlobRead} :
    (∃ group ∈ packReads (blobs.toList.map Prod.snd), read ∈ group) ↔
      ∃ chunk : ObjectId, blobs[chunk]? = some read := by
  rw [← List.mem_flatten, (packReads_reads _).partition.mem_iff, List.mem_map]
  constructor
  · rintro ⟨⟨chunk, _⟩, hmem, rfl⟩
    exact ⟨chunk, Std.ExtTreeMap.mem_toList_iff_getElem?_eq_some.mp hmem⟩
  · rintro ⟨chunk, hread⟩
    exact ⟨(chunk, read), Std.ExtTreeMap.mem_toList_iff_getElem?_eq_some.mpr hread, rfl⟩

theorem atoms_serve (h : Collected repo places byPack) {a : Atom}
    (ha : a ∈ (byPack.toList.map readPack).flatten) : Serves repo places a := by
  obtain ⟨task, htask, ha⟩ := List.mem_flatten.mp ha
  obtain ⟨⟨packId, blobs⟩, hpack, rfl⟩ := List.mem_map.mp htask
  obtain ⟨group, hgroup, ha⟩ := List.mem_flatMap.mp ha
  have hblobs := Std.ExtTreeMap.mem_toList_iff_getElem?_eq_some.mp hpack
  have hreads := packReads_reads (blobs.toList.map Prod.snd)
  have hin : ∀ read ∈ group, ∃ chunk l, InRange repo places packId (groupRange group) chunk l ∧
      l.entry = read.entry ∧ ∀ destination ∈ read.destinations, (chunk, destination) ∈ places := by
    intro read hread
    obtain ⟨chunk, hchunk⟩ := mem_packReads.mp ⟨group, hgroup, hread⟩
    obtain ⟨l, hl, hpackId, hentry, hne, hdestinations⟩ := h.sound packId chunk read (by
      rw [readOf, hblobs]
      exact hchunk)
    obtain ⟨destination, hdestination⟩ := List.exists_mem_of_ne_nil _ hne
    obtain ⟨hstart, hstop⟩ := hreads.contains group hgroup read hread
    exact ⟨chunk, l, ⟨hl, hpackId, ⟨destination, hdestinations _ hdestination⟩, hentry ▸ hstart,
      hentry ▸ hstop⟩, hentry.symm, hdestinations⟩
  have hranged : Ranged repo places packId (groupRange group) := by
    obtain ⟨last, hlast, hend⟩ := groupRange_ends (hreads.nonempty group hgroup)
    obtain ⟨chunk, l, hrange, hentry, -⟩ := hin last hlast
    exact ⟨chunk, l, hrange, by rw [hentry, hend]⟩
  unfold groupAtoms at ha
  rcases List.mem_cons.mp ha with rfl | ha
  · exact hranged
  · obtain ⟨read, hread, ha⟩ := List.mem_flatMap.mp ha
    obtain ⟨chunk, l, hrange, hentry, hdestinations⟩ := hin read hread
    rcases List.mem_cons.mp ha with rfl | ha
    · exact ⟨hranged, chunk, l, hrange, hentry⟩
    · obtain ⟨destination, hdestination, rfl⟩ := List.mem_map.mp ha
      exact ⟨hranged, chunk, l, hrange, hentry, hdestinations _ hdestination⟩

theorem atoms_complete (h : Collected repo places byPack) (hplace : (chunk, destination) ∈ places) :
    ∃ l range, repo.index.lookup chunk = some l ∧
      Atom.write l.packId range l.entry destination ∈ (byPack.toList.map readPack).flatten := by
  obtain ⟨l, read, hl, hread, hdestination⟩ := h.present _ _ hplace
  obtain ⟨blobs, hblobs, hchunk⟩ := Option.bind_eq_some_iff.mp hread
  obtain ⟨group, hgroup, hin⟩ := mem_packReads.mpr ⟨chunk, hchunk⟩
  obtain ⟨l', hl', -, hentry, -⟩ := h.sound _ _ _ hread
  cases hl.symm.trans hl'
  refine ⟨l, groupRange group, hl, List.mem_flatten.mpr ⟨readPack (l.packId, blobs), ?_, ?_⟩⟩
  · exact List.mem_map_of_mem (Std.ExtTreeMap.mem_toList_iff_getElem?_eq_some.mpr hblobs)
  · refine List.mem_flatMap.mpr ⟨group, hgroup, List.mem_cons_of_mem _ ?_⟩
    refine List.mem_flatMap.mpr ⟨read, hin, List.mem_cons_of_mem _ ?_⟩
    rw [← hentry]
    exact List.mem_map_of_mem hdestination

theorem blobIn_eq_ok (hstart : range.1 ≤ e.offset) (hstop : e.end ≤ range.2) :
    (r.blobIn packId range e).result = .ok plaintext ↔
      ∃ data, r.repo.packs[packId]? = some data ∧ range.2 ≤ data.length ∧
        Decodes r.repo e data plaintext := by
  have hrange : range.1 ≤ range.2 := by
    unfold Entry.end at hstop
    omega
  unfold blobIn Decodes
  simp only [Metered.bind_eq_ok, getRange_eq_ok, Metered.slice_eq_ok, Metered.mapError_eq_ok]
  have hcut : ∀ data : List StoredByte,
      ((((data.drop range.1).take (range.2 - range.1)).drop (e.offset - range.1)).take
        (e.offset - range.1 + e.length - (e.offset - range.1))) = cut e data := by
    intro data
    unfold cut Entry.end at *
    rw [List.drop_take, List.drop_drop, List.take_take]
    congr 2 <;> omega
  constructor
  · rintro ⟨_, ⟨data, hdata, hlen, rfl⟩, _, ⟨-, -, rfl⟩, hdecode⟩
    rw [hcut] at hdecode
    exact ⟨data, hdata, by omega, hdecode⟩
  · rintro ⟨data, hdata, hlen, hdecode⟩
    refine ⟨_, ⟨data, hdata, by omega, rfl⟩, _, ⟨Nat.le_add_right _ _, ?_, rfl⟩, ?_⟩
    · rw [List.length_take, List.length_drop]
      unfold Entry.end at hstop
      omega
    · rwa [hcut]

theorem blobIn_loads (hrange : InRange r.repo places packId range chunk l) :
    (r.blobIn packId range l.entry).result = .ok plaintext ↔
      (r.repo.loadBlob chunk).result = .ok plaintext ∧
        ∃ data, r.repo.packs[packId]? = some data ∧ range.2 ≤ data.length := by
  rw [blobIn_eq_ok hrange.start hrange.stop, loadBlob_eq_ok]
  have hpack := hrange.pack
  subst hpack
  constructor
  · rintro ⟨data, hdata, hlen, hdecode⟩
    exact ⟨⟨l, data, hrange.lookup, hdata, hrange.stop.trans hlen, hdecode⟩, data, hdata, hlen⟩
  · rintro ⟨⟨l', data, hl', hdata, -, hdecode⟩, data', hdata', hlen⟩
    cases hrange.lookup.symm.trans hl'
    cases hdata.symm.trans hdata'
    exact ⟨data, hdata, hlen, hdecode⟩

end Atoms

section Contents

variable {repo : Verify.Repository} {places : List (ObjectId × (ℕ × ℕ))} {chunk : ObjectId}
  {files : List (List String × TreeFormat.Node)} {f : List String × TreeFormat.Node}
  {file start offset : ℕ} {content : List ObjectId} {pieces : List (List UInt8)}
  {destination : ℕ × ℕ} {piece : List UInt8}

def Pieces (repo : Verify.Repository) (content : List ObjectId) (pieces : List (List UInt8)) : Prop :=
  List.Forall₂ (fun chunk piece => (repo.loadBlob chunk).result = .ok piece) content pieces

theorem loadBlob_length (h : (repo.loadBlob chunk).result = .ok piece) :
    piece.length = chunkLength repo chunk := by
  obtain ⟨l, data, hl, -, -, hdecode⟩ := loadBlob_eq_ok.mp h
  obtain ⟨-, stored, -, hout, -⟩ := decodeBlob_eq_ok.mp hdecode
  rw [chunkLength, hl, Option.elim_some]
  exact (decompress_eq_ok.mp hout).1

theorem Pieces.length (h : Pieces repo content pieces) :
    pieces.flatten.length = (content.map (chunkLength repo)).sum := by
  induction h with
  | nil => rfl
  | cons hpiece _ ih =>
      rw [List.flatten_cons, List.length_append, ih, List.map_cons, List.sum_cons,
        loadBlob_length hpiece]

theorem exists_pieces (h : ∀ chunk ∈ content, ∃ piece, (repo.loadBlob chunk).result = .ok piece) :
    ∃ pieces, Pieces repo content pieces := by
  induction content with
  | nil => exact ⟨[], .nil⟩
  | cons chunk content ih =>
      obtain ⟨⟨piece, hpiece⟩, hrest⟩ := List.forall_mem_cons.mp h
      obtain ⟨pieces, hpieces⟩ := ih hrest
      exact ⟨piece :: pieces, .cons hpiece hpieces⟩

theorem mem_chunkPlaces (hplace : (chunk, destination) ∈ chunkPlaces repo file content offset) :
    chunk ∈ content ∧ destination.1 = file := by
  induction content generalizing offset with
  | nil => cases hplace
  | cons first content ih =>
      rw [chunkPlaces] at hplace
      rcases List.mem_cons.mp hplace with heq | hplace
      · cases heq
        exact ⟨List.mem_cons_self, rfl⟩
      · obtain ⟨hmem, hfile⟩ := ih hplace
        exact ⟨List.mem_cons_of_mem _ hmem, hfile⟩

theorem exists_place (hchunk : chunk ∈ content) :
    ∃ destination, (chunk, destination) ∈ chunkPlaces repo file content offset := by
  induction content generalizing offset with
  | nil => cases hchunk
  | cons first content ih =>
      rw [chunkPlaces]
      rcases List.mem_cons.mp hchunk with rfl | hchunk
      · exact ⟨_, List.mem_cons_self⟩
      · obtain ⟨destination, hplace⟩ := @ih (offset + chunkLength repo first) hchunk
        exact ⟨destination, List.mem_cons_of_mem _ hplace⟩

theorem mem_filePlaces : (chunk, file, offset) ∈ filePlaces repo start files ↔
    ∃ f, start ≤ file ∧ files[file - start]? = some f ∧
      (chunk, file, offset) ∈ chunkPlaces repo file f.2.content 0 := by
  induction files generalizing start with
  | nil => simp [filePlaces]
  | cons first files ih =>
      obtain ⟨path, node⟩ := first
      rw [filePlaces, List.mem_append, ih]
      constructor
      · rintro (hplace | ⟨f, hle, hf, hplace⟩)
        · obtain rfl := (mem_chunkPlaces hplace).2
          exact ⟨(path, node), le_rfl, by simp, hplace⟩
        · refine ⟨f, by omega, ?_, hplace⟩
          rwa [show file - start = file - (start + 1) + 1 by omega, List.getElem?_cons_succ]
      · rintro ⟨f, hle, hf, hplace⟩
        by_cases hfirst : file = start
        · subst hfirst
          rw [Nat.sub_self, List.getElem?_cons_zero, Option.some.injEq] at hf
          subst hf
          exact .inl hplace
        · refine .inr ⟨f, by omega, ?_, hplace⟩
          rwa [show file - start = file - (start + 1) + 1 by omega, List.getElem?_cons_succ] at hf

theorem Pieces.mem_placed (h : Pieces repo content pieces) :
    (offset, piece) ∈ placed start pieces ↔ ∃ chunk,
      (chunk, file, offset) ∈ chunkPlaces repo file content start ∧
        (repo.loadBlob chunk).result = .ok piece := by
  induction h generalizing start with
  | nil => simp [Patches.placed, chunkPlaces]
  | @cons first firstPiece content pieces hpiece _ ih =>
      rw [Patches.placed, chunkPlaces, ← loadBlob_length hpiece]
      simp only [List.mem_cons, ih, Prod.mk.injEq, true_and]
      constructor
      · rintro (⟨rfl, rfl⟩ | ⟨chunk, hplace, hload⟩)
        · exact ⟨first, .inl ⟨rfl, rfl⟩, hpiece⟩
        · exact ⟨chunk, .inr hplace, hload⟩
      · rintro ⟨chunk, ⟨rfl, rfl⟩ | hplace, hload⟩
        · rw [hpiece] at hload
          cases hload
          exact .inl ⟨rfl, rfl⟩
        · exact .inr ⟨chunk, hplace, hload⟩

def patch (r : Restorer) (file : ℕ) : Atom → Option (ℕ × List UInt8)
  | .write packId range e destination =>
      if destination.1 = file then
        (r.blobIn packId range e).result.toOption.map fun plaintext => (destination.2, plaintext)
      else none
  | _ => none

theorem patch_eq_some {a : Atom} : r.patch file a = some (offset, piece) ↔
    ∃ packId range e, a = .write packId range e (file, offset) ∧
      (r.blobIn packId range e).result = .ok piece := by
  cases a with
  | write packId range e destination =>
      unfold patch
      dsimp only
      constructor
      · intro h
        split_ifs at h with hfile
        cases hread : (r.blobIn packId range e).result with
        | error failure =>
            rw [hread] at h
            cases h
        | ok plaintext =>
            rw [hread] at h
            cases h
            exact ⟨packId, range, e, by rw [← hfile], hread⟩
      · rintro ⟨_, _, _, ⟨⟩, hread⟩
        rw [if_pos rfl, hread]
        rfl
  | _ => simp [patch]

theorem writes_content {as : List Atom} {bytes : List UInt8} (hf : files[file]? = some f)
    (hpieces : Pieces r.repo f.2.content pieces)
    (hserve : ∀ a ∈ as, Serves r.repo (filePlaces r.repo 0 files) a)
    (hcomplete : ∀ chunk destination, (chunk, destination) ∈ filePlaces r.repo 0 files →
      ∃ l range, r.repo.index.lookup chunk = some l ∧
        Atom.write l.packId range l.entry destination ∈ as)
    (hread : ∀ packId range e destination, Atom.write packId range e destination ∈ as →
      ∃ plaintext, (r.blobIn packId range e).result = .ok plaintext)
    (hlen : bytes.length = pieces.flatten.length) :
    (as.filterMap (r.patch file)).foldl (fun bytes p => Patches.writeAt 0 bytes p.1 p.2) bytes =
      pieces.flatten := by
  have hloads : ∀ packId range e offset piece, Atom.write packId range e (file, offset) ∈ as →
      (r.blobIn packId range e).result = .ok piece →
        (e.id, file, offset) ∈ chunkPlaces r.repo file f.2.content 0 ∧
          (r.repo.loadBlob e.id).result = .ok piece := by
    intro packId range e offset piece ha hpiece
    obtain ⟨-, chunk, l, hrange, rfl, hplace⟩ := hserve _ ha
    obtain ⟨g, -, hg, hin⟩ := mem_filePlaces.mp hplace
    cases hf.symm.trans hg
    rw [(Index.read_lookup r.repo.opened hrange.lookup).1]
    exact ⟨hin, ((blobIn_loads hrange).mp hpiece).1⟩
  refine writes_fill 0 hlen ?_ ?_
  · rintro ⟨offset, piece⟩ hp
    obtain ⟨a, ha, hpatch⟩ := List.mem_filterMap.mp hp
    obtain ⟨packId, range, e, rfl, hpiece⟩ := patch_eq_some.mp hpatch
    obtain ⟨hin, hload⟩ := hloads _ _ _ _ _ ha hpiece
    exact placed_fits [] pieces _ (hpieces.mem_placed.mpr ⟨_, hin, hload⟩)
  · intro i hi
    obtain ⟨⟨offset, piece⟩, hplaced, hcovers⟩ := placed_covers 0 pieces (Nat.zero_le i) (by omega)
    obtain ⟨chunk, hin, hload⟩ := (@Pieces.mem_placed r.repo file 0 offset f.2.content pieces piece hpieces).mp hplaced
    obtain ⟨l, range, hl, ha⟩ := hcomplete chunk (file, offset)
      (mem_filePlaces.mpr ⟨f, Nat.zero_le _, hf, hin⟩)
    obtain ⟨plaintext, hpiece⟩ := hread _ _ _ _ ha
    -- The write is that of this chunk, as its entry names it.
    obtain ⟨-, hsame⟩ := hloads _ _ _ _ _ ha hpiece
    rw [(Index.read_lookup r.repo.opened hl).1, hload] at hsame
    cases hsame
    exact .inr ⟨_, List.mem_filterMap.mpr ⟨_, ha, patch_eq_some.mpr ⟨_, _, _, rfl, hpiece⟩⟩, hcovers⟩

end Contents

end Restorer

end FileMirror.Restore
