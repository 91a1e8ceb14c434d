import FileMirror.RestoreSpares

set_option autoImplicit false

namespace FileMirror.Restore

open Attempts Disk FileMirror.Restorer PackFormat Verify

namespace Restorer

variable {r : Restorer} {plan : FileMirror.Restorer.Plan} {rel : String} {d₀ d d' : Disk} {i : ℕ}
  {done : List (List String)}

/-- There is something else where a directory belongs, or anything where a file or a link does, and
nothing may be replaced. -/
def Obstructed (r : Restorer) (plan : FileMirror.Restorer.Plan) (d₀ : Disk) : Prop :=
  r.overwrite = false ∧
    ((∃ dir ∈ plan.dirs, d₀.held (r.spot dir.1) ≠ none ∧ ¬ d₀.IsDir (r.spot dir.1)) ∨
      ∃ rel ∈ plan.symlinks.map Prod.fst ++ plan.files.map Prod.fst, d₀.held (r.spot rel) ≠ none)

def Readable (repo : Verify.Repository) (node : TreeFormat.Node) : Prop :=
  FileWhole repo node ∧ ∀ chunk ∈ node.content, ∃ piece, (repo.loadBlob chunk).result = .ok piece

def Hindered (r : Restorer) (plan : FileMirror.Restorer.Plan) (d₀ : Disk) : Prop :=
  r.Faulty ∨ r.Obstructed plan d₀ ∨ ∃ file ∈ plan.files, ¬ Readable r.repo file.2

def Ended (r : Restorer) (plan : FileMirror.Restorer.Plan) (d₀ d : Disk) : Prop :=
  r.Spares ((rels plan).map r.spot) d₀ d ∧ r.Hindered plan d₀

section Standings

variable (h : r.Standing plan d₀ done d) (hrel : rel ∈ rels plan) (hnot : r.spot rel ∉ done)

include h hrel hnot

theorem Standing.before (htaken : d.held (r.spot rel) ≠ none) :
    (d₀.held (r.spot rel)).map Held.bare = (d.held (r.spot rel)).map Held.bare :=
  ((h.later rel hrel hnot).resolve_left htaken).symm

theorem Standing.taken_before (htaken : d.held (r.spot rel) ≠ none) :
    d₀.held (r.spot rel) ≠ none := by
  intro hnone
  have hbefore := h.before hrel hnot htaken
  rw [hnone] at hbefore
  exact htaken (Option.map_eq_none_iff.mp hbefore.symm)

theorem Standing.file_before (hfile : d.held (r.spot rel) = some (.file i)) :
    d₀.held (r.spot rel) = some (.file i) := by
  have htaken : d.held (r.spot rel) ≠ none := by
    rw [hfile]
    exact Option.some_ne_none _
  rw [← bare_eq_file, h.before hrel hnot htaken, hfile]
  rfl

omit hnot in
theorem Standing.ended (htree : Treelike plan) {blocked : Prop}
    (hstop : r.Stopped (r.spot rel) blocked d d') (hblocked : blocked → r.Obstructed plan d₀) :
    r.Ended plan d₀ d' :=
  ⟨h.spares.around (List.mem_map_of_mem hrel) (htree.within hrel) (by simp) hstop.1,
    hstop.2.imp id fun hb => .inl (hblocked hb)⟩

end Standings

def dirSpots (r : Restorer) (plan : FileMirror.Restorer.Plan) : List (List String) :=
  plan.dirs.map fun dir => r.spot dir.1

def linkSpots (r : Restorer) (plan : FileMirror.Restorer.Plan) : List (List String) :=
  plan.symlinks.map fun link => r.spot link.1

def writeSpots (r : Restorer) (plan : FileMirror.Restorer.Plan) : List (List String) :=
  (r.split plan.files).toWrite.map fun w => r.spotOf w.1

def sharedSpots (r : Restorer) (plan : FileMirror.Restorer.Plan) : List (List String) :=
  (r.split plan.files).links.map fun link => r.spotOf link.2

theorem spots_nodup (htree : Treelike plan) :
    (r.dirSpots plan ++ (r.linkSpots plan ++ (r.writeSpots plan ++ r.sharedSpots plan))).Nodup := by
  have hspots : ((rels plan).map r.spot).Nodup :=
    (List.nodup_map_iff_inj_on (List.Nodup.of_map _ htree.distinct)).mpr fun a ha b hb h =>
      htree.spot_injective ha hb h
  have hfiles : (r.writeSpots plan ++ r.sharedSpots plan).Perm
      (plan.files.map fun file => r.spot file.1) := by
    have hperm := (splits (r := r) plan.files).perm.map r.spotOf
    rw [List.map_append, List.map_map, List.map_map, List.map_map] at hperm
    refine hperm.trans (List.Perm.of_eq (List.map_congr_left fun file _ => ?_))
    exact spotOf_path
  refine (List.Perm.nodup_iff ?_).mpr hspots
  rw [rels, List.map_append, List.map_append, List.map_map, List.map_map, List.map_map]
  exact ((hfiles.append_left _).append_left _)

theorem not_mem_of_nodup {α : Type} {before front after rest : List α} {a : α}
    (h : (before ++ (front ++ a :: rest ++ after)).Nodup) : a ∉ before ++ front := by
  intro ha
  have hflat : (before ++ front ++ a :: (rest ++ after)).Nodup := by
    simpa [List.append_assoc] using h
  exact (List.nodup_append.mp hflat).2.2 a ha a List.mem_cons_self rfl

variable (htree : Treelike plan) (hreach : r.Reaches d₀)

include htree hreach

theorem runs_dirs :
    Runs (r.Standing plan d₀ []) (plan.dirs.forM fun dir => r.makeDir dir.1)
      (fun _ => r.Standing plan d₀ (r.dirSpots plan)) (r.Ended plan d₀) := by
  refine runs_forM (fun front => r.Standing plan d₀ (front.map fun dir => r.spot dir.1)) ?_ ?_ ?_
  · exact fun _ h => h
  · exact fun _ h => h
  intro front dir back hdirs d h
  have hmem : dir ∈ plan.dirs := mem_of_split hdirs
  have hrel : dir.1 ∈ rels plan := List.mem_append_left _ (List.mem_map_of_mem hmem)
  have hfree : ∀ y ∈ front.map fun dir => r.spot dir.1, ¬ r.spot dir.1 <+: y := by
    intro y hy
    obtain ⟨e, he, rfl⟩ := List.mem_map.mp hy
    exact htree.dir_first hdirs he
  have hnot : r.spot dir.1 ∉ front.map fun dir => r.spot dir.1 := fun hin =>
    hfree _ hin List.prefix_rfl
  have hkeeps : r.Keeps (r.path dir.1) (r.spot dir.1) d := by
    refine h.keeps htree hreach hrel fun other hother hprefix hne => ?_
    have hrels : other.1 ∈ rels plan := List.mem_append_left _ (List.mem_map_of_mem hother)
    obtain ⟨e, he, heq⟩ := htree.parentsFirst front dir back hdirs _ hprefix
      (htree.proper _ hrels) fun heq => hne (List.inj_on_of_nodup_map htree.distinct hrels hrel heq)
    refine List.mem_map.mpr ⟨e, he, ?_⟩
    rw [spot, heq, spot]
  refine (runs_makeDir hkeeps ((htree.within hrel).trans (List.dropLast_prefix _))).weaken
    (fun _ h => h) ?_ ?_
  · rintro _ w ⟨hdir, ha, -⟩
    rw [List.map_append, List.map_singleton]
    refine h.around htree hrel hfree (by simp) ha (fun _ _ _ => hdir) fun link hlink heq => ?_
    exact absurd (congrArg _ heq.symm) (htree.not_dir
      (List.mem_append_left _ (List.mem_map_of_mem hlink)) hmem)
  · intro w hstop
    refine h.ended hrel htree hstop fun hblocked => ⟨hblocked.1.1, .inl ⟨dir, hmem, ?_, ?_⟩⟩
    · exact h.taken_before hrel hnot hblocked.1.2
    · rw [isDir_iff, h.before hrel hnot hblocked.1.2, ← isDir_iff]
      exact hblocked.2

theorem runs_symlinks :
    Runs (r.Standing plan d₀ (r.dirSpots plan))
      (plan.symlinks.forM fun link => r.makeSymlink link.1 link.2)
      (fun _ => r.Standing plan d₀ (r.dirSpots plan ++ r.linkSpots plan)) (r.Ended plan d₀) := by
  refine runs_forM (fun front => r.Standing plan d₀
    (r.dirSpots plan ++ front.map fun link => r.spot link.1)) ?_ ?_ ?_
  · intro d h
    rwa [List.map_nil, List.append_nil]
  · exact fun _ h => h
  intro front link back hlinks d h
  have hmem : link ∈ plan.symlinks := mem_of_split hlinks
  have hleaf : link.1 ∈ plan.symlinks.map Prod.fst ++ plan.files.map Prod.fst :=
    List.mem_append_left _ (List.mem_map_of_mem hmem)
  have hrel : link.1 ∈ rels plan := List.mem_append_right _ hleaf
  have hnot : r.spot link.1 ∉ r.dirSpots plan ++ front.map fun link => r.spot link.1 := by
    have hnodup := spots_nodup (r := r) htree
    rw [linkSpots, hlinks, List.map_append, List.map_cons] at hnodup
    exact not_mem_of_nodup hnodup
  have hkeeps := h.keeps_all htree hreach hrel fun dir hdir =>
    List.mem_append_left _ (List.mem_map_of_mem hdir)
  obtain ⟨target, htarget⟩ := Option.isSome_iff_exists.mp (htree.symlinks link hmem)
  refine (runs_makeSymlink hkeeps (htree.within hrel) htarget).weaken (fun _ h => h) ?_ ?_
  · rintro _ d' ⟨hheld, ha, -⟩
    rw [List.map_append, List.map_singleton, ← List.append_assoc]
    refine h.around htree hrel (h.leaf htree hleaf hnot) (by simp) ha ?_ ?_
    · exact fun dir hdir heq => absurd (congrArg _ heq) (htree.not_dir hleaf hdir)
    · intro other hother heq
      have hsame : other = link := by
        have hnodup : (plan.symlinks.map Prod.fst).Nodup := by
          have hall := List.Nodup.of_map _ htree.distinct
          exact (List.nodup_append.mp (List.nodup_append.mp hall).2.1).1
        exact List.inj_on_of_nodup_map hnodup hother hmem heq
      rw [hsame]
      exact ⟨target, htarget, hheld⟩
  · intro d' hstop
    refine h.ended hrel htree hstop fun hblocked => ⟨hblocked.1, .inr ⟨link.1, hleaf, ?_⟩⟩
    exact h.taken_before hrel hnot hblocked.2

end Restorer

end FileMirror.Restore
