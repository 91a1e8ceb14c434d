import FileMirror.PlannedTrees
import FileMirror.RestoreData

set_option autoImplicit false

namespace FileMirror.Restore

open Attempts Disk FileMirror.Restorer PackFormat Verify

namespace Restorer

variable {r : Restorer} {plan : FileMirror.Restorer.Plan} {d₀ d d' : Disk} {i : ℕ}
  {done : List (List String)} {x : List String} {P : FileInfo → Prop}
  {ws : List (List String × TreeFormat.Node)}

theorem Filled.congr (h : r.Filled plan d₀ ws d)
    (hfile : ∀ w ∈ ws, ∀ i, d'.held (r.spotOf w.1) = some (.file i) ↔
      d.held (r.spotOf w.1) = some (.file i))
    (hbytes : ∀ i, (d'.inodes i).bytes = (d.inodes i).bytes) : r.Filled plan d₀ ws d' := by
  refine ⟨⟨?_, ?_⟩, ?_⟩
  · intro w hw
    obtain ⟨i, hi, hnew⟩ := h.held w hw
    exact ⟨i, (hfile w hw i).mpr hi, hnew⟩
  · intro hdistinct v hv w hw i hvi hwi
    exact h.apart hdistinct v hv w hw i ((hfile v hv i).mp hvi) ((hfile w hw i).mp hwi)
  · intro hdistinct w hw i hi
    rw [hbytes]
    exact h.contents hdistinct w hw i ((hfile w hw i).mp hi)

theorem Tells.congr (h : Tells P x d) (hi : d.held x = some (.file i))
    (hi' : d'.held x = some (.file i)) (hinode : d'.inodes i = d.inodes i) : Tells P x d' := by
  rcases h with ⟨info, hinfo, -⟩ | ⟨j, hj, hP⟩
  · cases hi.symm.trans hinfo
  · cases hi.symm.trans hj
    exact .inr ⟨i, hi', hinode ▸ hP⟩

structure Finished (r : Restorer) (plan : FileMirror.Restorer.Plan) (d₀ : Disk)
    (ws : List (List String × TreeFormat.Node)) (d : Disk) : Prop extends r.Filled plan d₀ ws d where
  told : r.Distinct plan d₀ → ∀ w ∈ ws, Tells (Recorded w.2) (r.spotOf w.1) d

theorem Finished.congr (h : r.Finished plan d₀ ws d)
    (hfile : ∀ w ∈ ws, ∀ i, d'.held (r.spotOf w.1) = some (.file i) ↔
      d.held (r.spotOf w.1) = some (.file i))
    (hinodes : d'.inodes = d.inodes) : r.Finished plan d₀ ws d' := by
  refine ⟨h.toFilled.congr hfile fun i => by rw [hinodes], fun hdistinct w hw => ?_⟩
  obtain ⟨i, hi, -⟩ := h.held w hw
  exact (h.told hdistinct w hw).congr hi ((hfile w hw i).mpr hi) (by rw [hinodes])

theorem Tells.same (h : Tells P x d) (hheld : d'.held x = d.held x) (hinodes : d'.inodes = d.inodes) :
    Tells P x d' := by
  unfold Tells
  rwa [hheld, hinodes]

theorem Tells.file (h : Tells P x d) (hi : d.held x = some (.file i)) : P (d.inodes i).info := by
  rcases h with ⟨info, hinfo, -⟩ | ⟨j, hj, hP⟩
  · cases hi.symm.trans hinfo
  · cases hi.symm.trans hj
    exact hP

theorem Tells.dir (h : Tells P x d) (hdir : d.IsDir x) :
    ∃ info, d.held x = some (.dir info) ∧ P info := by
  obtain ⟨info, hinfo⟩ := hdir
  rcases h with ⟨info', hinfo', hP⟩ | ⟨j, hj, -⟩
  · exact ⟨info', hinfo', hP⟩
  · cases hinfo.symm.trans hj

def Joined (r : Restorer) (links : List (List String × List String)) (d : Disk) : Prop :=
  ∀ l ∈ links, ∀ i, d.held (r.spotOf l.1) = some (.file i) → d.held (r.spotOf l.2) = some (.file i)

variable (htree : Treelike plan) (hreach : r.Reaches d₀)

include htree hreach

theorem runs_finishFiles (hdirs : r.dirSpots plan ⊆ done) :
    Runs (fun d => r.Standing plan d₀ done d ∧ r.Filled plan d₀ (r.split plan.files).toWrite d)
      ((r.split plan.files).toWrite.forM r.finishFile)
      (fun _ d => r.Standing plan d₀ done d ∧ r.Finished plan d₀ (r.split plan.files).toWrite d)
      (r.Ended plan d₀) := by
  refine runs_forM (fun front d => (r.Standing plan d₀ done d ∧
    r.Filled plan d₀ (r.split plan.files).toWrite d) ∧
      (r.Distinct plan d₀ → ∀ w ∈ front, Tells (Recorded w.2) (r.spotOf w.1) d)) ?_ ?_ ?_
  · exact fun d h => ⟨h, by simp⟩
  · exact fun d h => ⟨h.1.1, h.1.2, h.2⟩
  rintro front w back hsplit d ⟨⟨h, hfilled⟩, htold⟩
  have hwin : w ∈ (r.split plan.files).toWrite := mem_of_split hsplit
  obtain ⟨f, hf, hwf, hspot, hleaf⟩ := exists_written hwin
  have hrel : f.1 ∈ rels plan := List.mem_append_right _ hleaf
  obtain ⟨i, hi, hnew⟩ := hfilled.held w hwin
  have hleads : d.Leads w.1 (r.spotOf w.1) := by
    rw [hspot, hwf]
    exact h.keeps_all htree hreach hrel (fun dir hdir => hdirs (List.mem_map_of_mem hdir)) d .refl
  have hmarks : ∀ d', Marks (r.spotOf w.1) d d' → r.Standing plan d₀ done d' := by
    intro d' hd'
    rw [hspot] at hd' hi
    refine h.alters hrel (fun j hj => ?_) hd'.1
    cases hi.symm.trans hj
    exact hnew.imp_right And.left
  have htype : w.2.nodeType ≠ .symlink := by
    rw [hwf]
    exact htree.files f hf
  unfold finishFile
  refine runs_bind ((runs_applyMetadata hleads (.inr ⟨i, hi⟩) htype).weaken (fun _ h => h)
    (fun _ _ h => h) ?_) ?_
  · rintro d' ⟨hd', hr⟩
    exact ⟨(hmarks d' hd').spares, .inl hr⟩
  rintro _ d' ⟨hd', htells⟩
  refine runs_addStats ⟨⟨hmarks d' hd', hfilled.congr (fun _ _ _ => hd'.1.file) hd'.2⟩, ?_⟩
  intro hdistinct v hv
  rcases List.mem_append.mp hv with hv | hv
  · have hvin : v ∈ (r.split plan.files).toWrite := by
      rw [hsplit]
      exact List.mem_append_left _ hv
    by_cases hvw : v = w
    · rw [hvw]
      exact htells
    · obtain ⟨j, hj, -⟩ := hfilled.held v hvin
      refine (htold hdistinct v hv).congr hj (hd'.1.file.mpr hj) (hd'.1.inodes j fun hown => ?_)
      exact hvw (hfilled.apart hdistinct v hvin w hwin j hj hown)
  · rw [List.mem_singleton.mp hv]
    exact htells

theorem runs_link {f g : String × TreeFormat.Node} (hdirs : r.dirSpots plan ⊆ done)
    (hwrites : r.writeSpots plan ⊆ done) (hf : f ∈ plan.files) (hg : g ∈ plan.files)
    (hw : (r.path g.1, g.2) ∈ (r.split plan.files).toWrite) (hnot : r.spot f.1 ∉ done)
    (h : r.Standing plan d₀ done d) (hfinished : r.Finished plan d₀ (r.split plan.files).toWrite d) :
    Runs (· = d) (r.linkFile (r.path g.1, r.path f.1))
      (fun _ d' => r.Standing plan d₀ (done ++ [r.spot f.1]) d' ∧
        r.Finished plan d₀ (r.split plan.files).toWrite d' ∧
          (∀ y ∈ done, ∀ j, d'.held y = some (.file j) ↔ d.held y = some (.file j)) ∧
            ∀ j, d.held (r.spot g.1) = some (.file j) → d'.held (r.spot f.1) = some (.file j))
      (r.Ended plan d₀) := by
  have hleaf : f.1 ∈ plan.symlinks.map Prod.fst ++ plan.files.map Prod.fst :=
    List.mem_append_right _ (List.mem_map_of_mem hf)
  have hrel : f.1 ∈ rels plan := List.mem_append_right _ hleaf
  have hrelg : g.1 ∈ rels plan :=
    List.mem_append_right _ (List.mem_append_right _ (List.mem_map_of_mem hg))
  have hall : ∀ dir ∈ plan.dirs, r.spot dir.1 ∈ done := fun dir hdir =>
    hdirs (List.mem_map_of_mem hdir)
  have hwritten : ∀ w ∈ (r.split plan.files).toWrite, r.spotOf w.1 ∈ done := fun w hw =>
    hwrites (List.mem_map_of_mem hw)
  have hsource : r.spot g.1 ∈ done := by
    have hin := hwritten _ hw
    dsimp only at hin
    rwa [spotOf_path] at hin
  obtain ⟨i, hi, -⟩ := hfinished.held _ hw
  dsimp only at hi
  rw [spotOf_path] at hi
  have hfrom : ∀ d', Around r.overwrite (r.spot f.1) [] d d' → d'.Leads (r.path g.1) (r.spot g.1) := by
    intro d' ha
    refine (h.around_file htree hf hnot (by simp) ha).keeps_all htree hreach hrelg
      (fun dir hdir => ?_) d' .refl
    exact List.mem_append_left _ (hall dir hdir)
  have hrun := @runs_linkFile r d (r.spot f.1) (r.spot g.1) i (r.path g.1, r.path f.1) hi hfrom
    (h.keeps_all htree hreach hrel hall) (htree.within hrel) (h.leaf htree hleaf hnot _ hsource)
  refine hrun.weaken (fun _ h => h) ?_ ?_
  · rintro _ d' ⟨hheld, ha, hinodes⟩
    have hsame : ∀ y ∈ done, ∀ j, d'.held y = some (.file j) ↔ d.held y = some (.file j) :=
      fun y hy j => ha.file (h.leaf htree hleaf hnot y hy)
    refine ⟨h.around_file htree hf hnot (by simpa using h.known hsource) ha,
      hfinished.congr (fun w hw j => hsame _ (hwritten w hw) j) hinodes, hsame, ?_⟩
    intro j hj
    cases hi.symm.trans hj
    exact hheld
  · intro d' hstop
    refine h.ended hrel htree hstop fun hblocked => ⟨hblocked.1, .inr ⟨f.1, hleaf, ?_⟩⟩
    exact h.taken_before hrel hnot hblocked.2

theorem runs_links :
    Runs (fun d => r.Standing plan d₀ (r.dirSpots plan ++ r.linkSpots plan ++ r.writeSpots plan) d ∧
        r.Finished plan d₀ (r.split plan.files).toWrite d)
      ((r.split plan.files).links.forM r.linkFile)
      (fun _ d => r.Standing plan d₀
          (r.dirSpots plan ++ r.linkSpots plan ++ r.writeSpots plan ++ r.sharedSpots plan) d ∧
        r.Finished plan d₀ (r.split plan.files).toWrite d ∧ r.Joined (r.split plan.files).links d)
      (r.Ended plan d₀) := by
  refine runs_forM (fun front d => r.Standing plan d₀ (r.dirSpots plan ++ r.linkSpots plan ++
      r.writeSpots plan ++ front.map fun link => r.spotOf link.2) d ∧
    r.Finished plan d₀ (r.split plan.files).toWrite d ∧ r.Joined front d) ?_ ?_ ?_
  · rintro d ⟨h, hfinished⟩
    rw [List.map_nil, List.append_nil]
    exact ⟨h, hfinished, by simp [Joined]⟩
  · exact fun _ h => h
  rintro front link back hlinks d ⟨h, hfinished, hjoined⟩
  have hwrites : r.writeSpots plan ⊆ r.dirSpots plan ++ r.linkSpots plan ++ r.writeSpots plan ++
      front.map fun link => r.spotOf link.2 := fun y hy =>
    List.mem_append_left _ (List.mem_append_right _ hy)
  have hsources : ∀ l ∈ (r.split plan.files).links, r.spotOf l.1 ∈ r.dirSpots plan ++
      r.linkSpots plan ++ r.writeSpots plan ++ front.map fun link => r.spotOf link.2 := by
    intro l hl
    obtain ⟨g, -, f, -, rfl, hw, -⟩ := (splits plan.files).linked l hl
    exact hwrites (List.mem_map_of_mem hw)
  have hlink : link ∈ (r.split plan.files).links := mem_of_split hlinks
  obtain ⟨g, hg, f, hf, rfl, hw, -⟩ := (splits plan.files).linked link hlink
  have hnot : r.spotOf (r.path f.1) ∉ r.dirSpots plan ++ r.linkSpots plan ++ r.writeSpots plan ++
      front.map fun link => r.spotOf link.2 := by
    have hnodup := spots_nodup (r := r) htree
    rw [← List.append_assoc, ← List.append_assoc, sharedSpots, hlinks, List.map_append,
      List.map_cons] at hnodup
    exact @not_mem_of_nodup _ _ _ [] _ _ (by rwa [List.append_nil])
  rw [spotOf_path] at hnot
  refine (runs_link htree hreach (fun y hy => ?_) hwrites hf hg hw hnot h hfinished).weaken
    (fun _ h => h) ?_ fun _ h => h
  · exact List.mem_append_left _ (List.mem_append_left _ (List.mem_append_left _ hy))
  rintro _ d' ⟨h', hfinished', hsame, hshared⟩
  refine ⟨?_, hfinished', ?_⟩
  · rw [List.map_append, List.map_singleton, ← List.append_assoc, spotOf_path]
    exact h'
  · intro l hl j hj
    rcases List.mem_append.mp hl with hl | hl
    · have hlin : l ∈ (r.split plan.files).links := by
        rw [hlinks]
        exact List.mem_append_left _ hl
      refine (hsame _ (List.mem_append_right _ (List.mem_map_of_mem hl)) j).mpr ?_
      exact hjoined l hl j ((hsame _ (hsources l hlin) j).mp hj)
    · obtain rfl := List.mem_singleton.mp hl
      have hbefore := (hsame _ (hsources _ hlink) j).mp hj
      dsimp only at hbefore ⊢
      rw [spotOf_path] at hbefore ⊢
      exact hshared j hbefore

theorem runs_dirMetadata (hdirs : r.dirSpots plan ⊆ done) :
    Runs (fun d => r.Standing plan d₀ done d ∧ r.Finished plan d₀ (r.split plan.files).toWrite d ∧
        r.Joined (r.split plan.files).links d)
      (plan.dirs.reverse.forM fun dir => r.applyMetadata (r.path dir.1) dir.2.1)
      (fun _ d => (r.Standing plan d₀ done d ∧
        r.Finished plan d₀ (r.split plan.files).toWrite d ∧
          r.Joined (r.split plan.files).links d) ∧
            ∀ dir ∈ plan.dirs, Tells (Recorded dir.2.1) (r.spot dir.1) d)
      (r.Ended plan d₀) := by
  refine runs_forM (fun front d => (r.Standing plan d₀ done d ∧
    r.Finished plan d₀ (r.split plan.files).toWrite d ∧ r.Joined (r.split plan.files).links d) ∧
      ∀ dir ∈ front, Tells (Recorded dir.2.1) (r.spot dir.1) d) ?_ ?_ ?_
  · exact fun d h => ⟨h, by simp⟩
  · exact fun d h => ⟨h.1, fun dir hdir => h.2 dir (List.mem_reverse.mpr hdir)⟩
  rintro front dir back hsplit d ⟨⟨h, hfinished, hjoined⟩, htold⟩
  have hin : ∀ e ∈ front ++ dir :: back, e ∈ plan.dirs := by
    intro e he
    rw [← hsplit] at he
    exact List.mem_reverse.mp he
  have hmem : dir ∈ plan.dirs := hin dir (List.mem_append_right _ List.mem_cons_self)
  have hrel : dir.1 ∈ rels plan := List.mem_append_left _ (List.mem_map_of_mem hmem)
  have hdir : d.IsDir (r.spot dir.1) := h.dirs dir hmem (hdirs (List.mem_map_of_mem hmem))
  have hnofile : ∀ i, d.held (r.spot dir.1) ≠ some (.file i) := by
    obtain ⟨info, hinfo⟩ := hdir
    intro i hi
    cases hinfo.symm.trans hi
  have hleads : d.Leads (r.path dir.1) (r.spot dir.1) :=
    h.keeps_all htree hreach hrel (fun e he => hdirs (List.mem_map_of_mem he)) d .refl
  have hmarks : ∀ d', Marks (r.spot dir.1) d d' → r.Standing plan d₀ done d' := fun d' hd' =>
    h.alters hrel (fun i hi => absurd hi (hnofile i)) hd'.1
  refine (runs_applyMetadata hleads (.inl hdir) (htree.dirs dir hmem)).weaken (fun _ h => h) ?_ ?_
  · rintro _ d' ⟨hd', htells⟩
    have hinodes : d'.inodes = d.inodes := funext fun i => hd'.1.inodes i (hnofile i)
    refine ⟨⟨hmarks d' hd', hfinished.congr (fun _ _ _ => hd'.1.file) hinodes, ?_⟩, ?_⟩
    · exact fun l hl i hi => hd'.1.file.mpr (hjoined l hl i (hd'.1.file.mp hi))
    · intro e he
      rcases List.mem_append.mp he with he | he
      · by_cases hsame : r.spot e.1 = r.spot dir.1
        · have hein := hin e (List.mem_append_left _ he)
          have hrele : e.1 ∈ rels plan := List.mem_append_left _ (List.mem_map_of_mem hein)
          have hnodup : (plan.dirs.map Prod.fst).Nodup :=
            (List.nodup_append.mp (List.Nodup.of_map _ htree.distinct)).1
          rw [List.inj_on_of_nodup_map hnodup hein hmem (htree.spot_injective hrele hrel hsame)]
          exact htells
        · exact (htold e he).same (hd'.1.held _ hsame) hinodes
      · rw [List.mem_singleton.mp he]
        exact htells
  · rintro d' ⟨hd', hr⟩
    exact ⟨(hmarks d' hd').spares, .inl hr⟩

omit htree hreach

/-- Everything of the plan is there: directories with what is recorded of them, links with their
targets, files with their data and what is recorded of them, and names of one file as such. -/
structure Restored (r : Restorer) (plan : FileMirror.Restorer.Plan) (d : Disk) : Prop where
  dirs : ∀ dir ∈ plan.dirs, ∃ info, d.held (r.spot dir.1) = some (.dir info) ∧ Recorded dir.2.1 info
  symlinks : ∀ link ∈ plan.symlinks, ∃ target, link.2.linkTarget = some target ∧
    d.held (r.spot link.1) = some (.symlink target)
  files : ∀ file ∈ plan.files, ∃ g ∈ plan.files, (g = file ∨ SameFile file.2 g.2) ∧
    ∃ i pieces, d.held (r.spot file.1) = some (.file i) ∧ d.held (r.spot g.1) = some (.file i) ∧
      Pieces r.repo g.2.content pieces ∧ (d.inodes i).bytes = pieces.flatten ∧
        pieces.flatten.length = g.2.size ∧ Recorded g.2 (d.inodes i).info

theorem restored (hdistinct : r.Distinct plan d₀)
    (h : r.Standing plan d₀ (r.dirSpots plan ++ r.linkSpots plan ++ r.writeSpots plan ++
      r.sharedSpots plan) d)
    (hfinished : r.Finished plan d₀ (r.split plan.files).toWrite d)
    (hjoined : r.Joined (r.split plan.files).links d)
    (htold : ∀ dir ∈ plan.dirs, Tells (Recorded dir.2.1) (r.spot dir.1) d) : r.Restored plan d := by
  have hwritten : ∀ g : String × TreeFormat.Node, (r.path g.1, g.2) ∈ (r.split plan.files).toWrite →
      ∃ i pieces, d.held (r.spot g.1) = some (.file i) ∧ Pieces r.repo g.2.content pieces ∧
        (d.inodes i).bytes = pieces.flatten ∧ pieces.flatten.length = g.2.size ∧
          Recorded g.2 (d.inodes i).info := by
    intro g hw
    obtain ⟨i, hi, -⟩ := hfinished.held _ hw
    obtain ⟨pieces, hpieces, hbytes, hlength⟩ := hfinished.contents hdistinct _ hw i hi
    have hrecorded := (hfinished.told hdistinct _ hw).file hi
    dsimp only at hi
    rw [spotOf_path] at hi
    exact ⟨i, pieces, hi, hpieces, hbytes, hlength, hrecorded⟩
  refine ⟨?_, ?_, ?_⟩
  · intro dir hdir
    refine (htold dir hdir).dir (h.dirs dir hdir ?_)
    simp only [List.mem_append]
    exact .inl (.inl (.inl (List.mem_map_of_mem hdir)))
  · intro link hlink
    refine h.symlinks link hlink ?_
    simp only [List.mem_append]
    exact .inl (.inl (.inr (List.mem_map_of_mem hlink)))
  · intro file hfile
    rcases (splits (r := r) plan.files).each file hfile with hw | ⟨g, hg, hw, hsame, hlink⟩
    · obtain ⟨i, pieces, hi, hrest⟩ := hwritten file hw
      exact ⟨file, hfile, .inl rfl, i, pieces, hi, hi, hrest⟩
    · obtain ⟨i, pieces, hi, hrest⟩ := hwritten g hw
      refine ⟨g, hg, .inr hsame, i, pieces, ?_, hi, hrest⟩
      have hshared : d.held (r.spotOf (r.path g.1)) = some (.file i) →
          d.held (r.spotOf (r.path file.1)) = some (.file i) := hjoined _ hlink i
      rw [spotOf_path, spotOf_path] at hshared
      exact hshared hi

include htree hreach

theorem runs_restore (s : Schedule) :
    Runs (· = d₀) (r.restore s plan)
      (fun _ d => r.Spares ((rels plan).map r.spot) d₀ d ∧ (r.Distinct plan d₀ → r.Restored plan d))
      (r.Ended plan d₀) := by
  unfold restore
  refine runs_bind ((runs_dirs htree hreach).weaken ?_ (fun _ _ h => h) fun _ h => h) ?_
  · rintro _ rfl
    exact standing_nil
  intro _ d₁ h₁
  refine runs_bind ((runs_symlinks htree hreach).weaken ?_ (fun _ _ h => h) fun _ h => h) ?_
  · rintro _ rfl
    exact h₁
  intro _ d₂ h₂
  have hin : r.dirSpots plan ⊆ r.dirSpots plan ++ r.linkSpots plan ++ r.writeSpots plan := fun y hy =>
    List.mem_append_left _ (List.mem_append_left _ hy)
  refine runs_bind (Q := fun _ d => r.Standing plan d₀ (r.dirSpots plan ++ r.linkSpots plan ++
      r.writeSpots plan ++ r.sharedSpots plan) d ∧
    r.Finished plan d₀ (r.split plan.files).toWrite d ∧ r.Joined (r.split plan.files).links d) ?_ ?_
  · unfold restoreFiles
    refine runs_bind ((runs_creates htree hreach).weaken ?_ (fun _ _ h => h) fun _ h => h) ?_
    · rintro _ rfl
      exact h₂
    rintro _ d₃ ⟨h₃, hmade⟩
    rcases @collectFiles_spec r r.repo [] ∅ 0 (r.split plan.files).toWrite collected_nil rfl with
      ⟨w, hw, hnot, e, he⟩ | ⟨byPack, hwhole, hok, hcollected⟩
    · obtain ⟨f, hf, rfl, -⟩ := exists_written hw
      rw [he]
      refine runs_bind (Q := fun _ _ => False) (runs_stop ⟨h₃.spares, ?_⟩) fun _ _ hfalse => hfalse.elim
      exact .inr (.inr ⟨f, hf, fun hreadable => hnot hreadable.1⟩)
    rw [hok]
    refine runs_bind_same (Q := fun found => found = byPack) (runs_pure ⟨rfl, rfl⟩) ?_
    rintro _ rfl
    rw [List.nil_append] at hcollected
    refine runs_bind (runs_reads htree hreach s hcollected hwhole hin h₃ hmade) ?_
    intro _ d₄ h₄
    refine runs_bind ((runs_finishFiles htree hreach hin).weaken ?_ (fun _ _ h => h) fun _ h => h) ?_
    · rintro _ rfl
      exact h₄
    intro _ d₅ h₅
    refine (runs_links htree hreach).weaken ?_ (fun _ _ h => h) fun _ h => h
    rintro _ rfl
    exact h₅
  intro _ d₆ h₆
  have hall : r.dirSpots plan ⊆ r.dirSpots plan ++ r.linkSpots plan ++ r.writeSpots plan ++
      r.sharedSpots plan := fun y hy => List.mem_append_left _ (hin hy)
  refine (runs_dirMetadata htree hreach hall).weaken ?_ ?_ fun _ h => h
  · rintro _ rfl
    exact h₆
  · rintro _ d ⟨⟨h, hfinished, hjoined⟩, htold⟩
    exact ⟨h.spares, fun hdistinct => restored hdistinct h hfinished hjoined htold⟩

omit htree hreach

theorem planning_plaintext {id : ObjectId} {plaintext : List UInt8} :
    r.planning.plaintext id = .ok plaintext ↔ (r.repo.treeBytes id).result = .ok plaintext := by
  unfold planning
  dsimp only
  split
  · next other hother =>
      rw [hother, Except.ok.injEq, Except.ok.injEq]
  · next e he =>
      rw [he]
      exact iff_of_false (by simp) (by simp)
  · next he => exact (treeBytes_unbroken he).elim

theorem planning_loads {id : ObjectId} {tree : TreeFormat.Tree} :
    r.planning.loadTree id = .ok tree ↔ (r.repo.loadTree id).result = .ok tree := by
  rw [loadTree_eq_ok]
  simp only [← planning_plaintext]
  unfold FileMirror.Restorer.Repository.loadTree
  cases r.planning.plaintext id with
  | error e => exact iff_of_false (by simp) (by simp)
  | ok plaintext =>
      constructor
      · exact fun h => ⟨plaintext, rfl, h⟩
      · rintro ⟨other, hother, h⟩
        cases hother
        exact h

section Examples

/-- An empty directory `out`. -/
def emptyOut : Disk where
  held := fun p => if p = [] ∨ p = ["out"] then some (.dir ⟨493, 0, 0, 0, 0⟩) else none
  inodes := fun _ => ⟨[], ⟨0, 0, 0, 0, 0⟩⟩
  next := 0
  user := (0, 0)
  fresh := by
    intro p i hp
    split_ifs at hp
    cases hp

def intoOut (data : List StoredByte) : Restorer where
  target := ["out"]
  resolvedTarget := ["out"]
  overwrite := false
  turns := fun _ => ⟨0, none⟩
  repo := storedTree data

def oneAfterAnother : Schedule where
  order := List.flatten
  interleaved := Patches.interleaved_flatten
  late := fun _ => []
  among := fun rest => List.nil_subset rest

variable {data : List StoredByte}

theorem intoOut_reaches : (intoOut data).Reaches emptyOut := by
  have hout : emptyOut.held ["out"] = some (.dir ⟨493, 0, 0, 0, 0⟩) := by simp [emptyOut]
  refine ⟨⟨_, hout⟩, fun d _ hdir => ?_⟩
  refine resolve_open (p := []) (by simp [Plain, intoOut]) fun q hq hne => ?_
  rcases List.prefix_cons_iff.mp hq with rfl | ⟨rest, rfl, hrest⟩
  · exact absurd rfl hne
  · rw [List.prefix_nil.mp hrest]
    exact hdir

theorem emptyOut_free {rel : String} (h : FileSystem.components rel ≠ []) :
    emptyOut.held ((intoOut data).spot rel) = none := by
  refine if_neg ?_
  rintro (hroot | hout)
  · cases hroot
  · exact h (List.cons.inj hout).2

theorem linkAndChunk_flat : ∀ n ∈ (TreeFormat.Tree.new linkAndChunk).nodes, n.nodeType ≠ .dir := by
  decide

theorem intoOut_loads (h : Packed data) :
    (intoOut data).planning.loadTree 8 = .ok (.new linkAndChunk) :=
  planning_loads.mpr h.loads

theorem intoOut_ends (h : Packed data) :
    FileMirror.Restorer.Ends (intoOut data).planning 8 := by
  refine .mk fun tree htree n hn hdir => ?_
  cases (intoOut_loads h).symm.trans htree
  exact absurd hdir (linkAndChunk_flat n hn)

theorem intoOut_planned (h : Packed data) : ∃ fuel plan,
    planRestore plainGlobs (intoOut data).planning fuel 8 [] [] = some (.ok plan) := by
  obtain ⟨m, hm⟩ : ∃ m, PathMatcher.new plainGlobs (intoOut data).planning.serde.debug [] = .ok m :=
    ⟨_, rfl⟩
  obtain ⟨fuel, hfuel⟩ := @planTree_ends m m (intoOut data).planning 8 (intoOut_ends h)
  obtain ⟨result, hresult⟩ := hfuel "" m.isEmpty ⟨[], [], []⟩
  cases result with
  | error e =>
      obtain ⟨below, hbelow, herror⟩ := planTree_error hresult
      cases hbelow with
      | self => cases (intoOut_loads h).symm.trans herror
      | step htree hn hdir =>
          cases (intoOut_loads h).symm.trans htree
          exact absurd hdir (linkAndChunk_flat _ hn)
  | ok walked =>
      refine ⟨fuel, pruneDirs walked, ?_⟩
      unfold planRestore
      rw [hm]
      dsimp only
      rw [hresult]
      rfl

theorem intoOut_unhindered (h : Packed data) {fuel : ℕ} {plan : FileMirror.Restorer.Plan}
    (hplan : planRestore plainGlobs (intoOut data).planning fuel 8 [] [] = some (.ok plan)) :
    ¬ (intoOut data).Hindered plan emptyOut := by
  have hfree : ∀ rel ∈ rels plan, emptyOut.held ((intoOut data).spot rel) = none := fun rel hrel =>
    emptyOut_free ((planRestore_treelike hplan).proper rel hrel)
  rintro (⟨n, hn⟩ | ⟨-, ⟨dir, hdir, htaken, -⟩ | ⟨rel, hrel, htaken⟩⟩ | ⟨file, hfile, hunread⟩)
  · cases hn
  · exact htaken (hfree _ (List.mem_append_left _ (List.mem_map_of_mem hdir)))
  · exact htaken (hfree _ (List.mem_append_right _ hrel))
  · obtain ⟨inc, exc, tree, vs, htree, hvs, rfl⟩ := planRestore_visits hplan
    cases (intoOut_loads h).symm.trans htree
    have hplans := pruned_plans
      (FileMirror.Restorer.loadTree_canonical (intoOut_loads h)).valid hvs
    obtain ⟨trail, hentry, -, htype, -⟩ := (hplans.files _ _).mp hfile
    have hnode : file.2 ∈ (TreeFormat.Tree.new linkAndChunk).nodes := by
      cases hentry with
      | here hn => exact hn
      | inside hd hdir => exact absurd hdir (linkAndChunk_flat _ hd)
    obtain ⟨hwhole, hsound⟩ := h.whole
    obtain ⟨tree, htree, hfiles⟩ := hwhole.trees _ List.mem_cons_self 8 .refl
    cases h.loads.symm.trans htree
    have hfile := hfiles _ hnode htype
    refine hunread ⟨hfile, fun chunk hchunk => ?_⟩
    obtain ⟨l, hl⟩ := Option.isSome_iff_exists.mp (hfile.listed chunk hchunk)
    exact hwhole.loads (hsound rfl) hl

/-- What is planned for a snapshot is restored, and nothing but the places of the plan is touched, save
what shares an inode with a file that is replaced. A restore that fails has a reason: a fault, what is
in the way, or data that does not load. -/
theorem restore_exact (r : Restorer) (s : Schedule) (globs : Globs) (fuel : ℕ) (id : ObjectId)
    (includes excludes : List String) (plan : FileMirror.Restorer.Plan) (w : World)
    (hplan : planRestore globs r.planning fuel id includes excludes = some (.ok plan))
    (hreach : r.Reaches w.disk) :
    (∃ w', r.restore s plan w = .ok ⟨⟩ w' ∧ r.Spares ((rels plan).map r.spot) w.disk w'.disk ∧
      (r.Distinct plan w.disk → r.Restored plan w'.disk)) ∨
    ∃ e w', r.restore s plan w = .error e w' ∧
      r.Spares ((rels plan).map r.spot) w.disk w'.disk ∧ r.Hindered plan w.disk := by
  have hends := runs_restore (planRestore_treelike hplan) hreach s w rfl
  cases hrun : r.restore s plan w with
  | ok _ w' =>
      rw [hrun] at hends
      exact .inl ⟨w', rfl, hends⟩
  | error e w' =>
      rw [hrun] at hends
      exact .inr ⟨e, w', rfl, hends⟩

/-- A link and a file of one chunk come to be in the empty directory. -/
theorem restore_exact_stored : ∃ data fuel plan w', Packed data ∧
    planRestore plainGlobs (intoOut data).planning fuel 8 [] [] = some (.ok plan) ∧
      (intoOut data).restore oneAfterAnother plan ⟨emptyOut, 0, ⟨0, 0, 0, 0, 0⟩⟩ = .ok ⟨⟩ w' ∧
        (intoOut data).Restored plan w'.disk := by
  obtain ⟨data, hpacked⟩ := exists_packed
  obtain ⟨fuel, plan, hplan⟩ := intoOut_planned hpacked
  rcases restore_exact (intoOut data) oneAfterAnother plainGlobs fuel 8 [] [] plan
      ⟨emptyOut, 0, ⟨0, 0, 0, 0, 0⟩⟩ hplan intoOut_reaches with
    ⟨w', hrun, -, hrestored⟩ | ⟨-, -, -, -, hhindered⟩
  · exact ⟨data, fuel, plan, w', hpacked, hplan, hrun, hrestored fun hover => by cases hover⟩
  · exact absurd hhindered (intoOut_unhindered hpacked hplan)

end Examples

end Restorer

end FileMirror.Restore
