import FileMirror.RestoreReads
import FileMirror.RestoreSteps

set_option autoImplicit false

namespace FileMirror.Restore

open Attempts Disk FileMirror.Restorer

namespace Restorer

theorem mem_of_split {α : Type} {l front back : List α} {a : α} (h : l = front ++ a :: back) :
    a ∈ l := by
  rw [h]
  exact List.mem_append_right _ List.mem_cons_self

def rels (plan : FileMirror.Restorer.Plan) : List String :=
  plan.dirs.map Prod.fst ++ (plan.symlinks.map Prod.fst ++ plan.files.map Prod.fst)

/-- The paths are those of one tree, and its directories come before what lies in them. -/
structure Treelike (plan : FileMirror.Restorer.Plan) : Prop where
  plain : ∀ rel ∈ rels plan, Plain (FileSystem.components rel)
  proper : ∀ rel ∈ rels plan, FileSystem.components rel ≠ []
  distinct : ((rels plan).map FileSystem.components).Nodup
  above : ∀ rel ∈ rels plan, ∀ p, p <+: FileSystem.components rel → p ≠ [] →
    p ≠ FileSystem.components rel → ∃ dir ∈ plan.dirs, FileSystem.components dir.1 = p
  parentsFirst : ∀ front dir back, plan.dirs = front ++ dir :: back →
    ∀ p, p <+: FileSystem.components dir.1 → p ≠ [] → p ≠ FileSystem.components dir.1 →
      ∃ e ∈ front, FileSystem.components e.1 = p
  dirs : ∀ dir ∈ plan.dirs, dir.2.1.nodeType ≠ .symlink
  symlinks : ∀ link ∈ plan.symlinks, link.2.linkTarget.isSome
  files : ∀ file ∈ plan.files, file.2.nodeType ≠ .symlink

variable {r : Restorer} {plan : FileMirror.Restorer.Plan} {rel other : String} {d₀ d d' : Disk} {i : ℕ}
  {x : List String} {xs done sources : List (List String)}

def spot (r : Restorer) (rel : String) : List String :=
  r.resolvedTarget ++ FileSystem.components rel

def spotOf (r : Restorer) (path : List String) : List String :=
  r.resolvedTarget ++ path.drop r.target.length

theorem spotOf_path : r.spotOf (r.path rel) = r.spot rel := by
  rw [spotOf, path, List.drop_left, spot]

/-- The target is a directory, and the way there does not lead through it. -/
def Reaches (r : Restorer) (d₀ : Disk) : Prop :=
  d₀.IsDir r.resolvedTarget ∧ ∀ d : Disk, (∀ p, ¬ r.resolvedTarget <+: p → d.held p = d₀.held p) →
    d.IsDir r.resolvedTarget → d.canonicalize r.target = .ok r.resolvedTarget

section Places

variable (htree : Treelike plan)

include htree

theorem Treelike.spot_injective (hrel : rel ∈ rels plan) (hother : other ∈ rels plan)
    (h : r.spot rel = r.spot other) : rel = other :=
  List.inj_on_of_nodup_map htree.distinct hrel hother (List.append_cancel_left h)

theorem Treelike.dropLast_spot (hrel : rel ∈ rels plan) :
    (r.spot rel).dropLast = r.resolvedTarget ++ (FileSystem.components rel).dropLast :=
  List.dropLast_append_of_ne_nil (htree.proper rel hrel)

theorem Treelike.within (hrel : rel ∈ rels plan) : r.resolvedTarget <+: (r.spot rel).dropLast := by
  rw [htree.dropLast_spot hrel]
  exact List.prefix_append _ _

theorem Treelike.not_dir (hrel : rel ∈ plan.symlinks.map Prod.fst ++ plan.files.map Prod.fst)
    {dir : String × TreeFormat.Node × Bool} (hdir : dir ∈ plan.dirs) :
    FileSystem.components dir.1 ≠ FileSystem.components rel := by
  intro heq
  have hdistinct := htree.distinct
  rw [rels, List.map_append] at hdistinct
  exact (List.nodup_append.mp hdistinct).2.2 _ (List.mem_map_of_mem (List.mem_map_of_mem hdir)) _
    (List.mem_map_of_mem hrel) heq

theorem Treelike.leaf (hrel : rel ∈ plan.symlinks.map Prod.fst ++ plan.files.map Prod.fst)
    (hother : other ∈ rels plan) (hne : other ≠ rel) : ¬ r.spot rel <+: r.spot other := by
  intro hprefix
  have hrels : rel ∈ rels plan := List.mem_append_right _ hrel
  have hbelow : FileSystem.components rel <+: FileSystem.components other :=
    (List.prefix_append_right_inj _).mp hprefix
  have hproper : FileSystem.components rel ≠ FileSystem.components other := fun heq =>
    hne (List.inj_on_of_nodup_map htree.distinct hother hrels heq.symm)
  obtain ⟨dir, hdir, heq⟩ := htree.above other hother _ hbelow (htree.proper rel hrels) hproper
  exact htree.not_dir hrel hdir heq

theorem Treelike.dir_first {front back : List (String × TreeFormat.Node × Bool)}
    {dir e : String × TreeFormat.Node × Bool} (hdirs : plan.dirs = front ++ dir :: back)
    (he : e ∈ front) : ¬ r.spot dir.1 <+: r.spot e.1 := by
  intro hprefix
  have hbelow : FileSystem.components dir.1 <+: FileSystem.components e.1 :=
    (List.prefix_append_right_inj _).mp hprefix
  have hnodup : (plan.dirs.map fun dir => FileSystem.components dir.1).Nodup := by
    have hdistinct := htree.distinct
    rw [rels, List.map_append, List.map_map] at hdistinct
    exact (List.nodup_append.mp hdistinct).1
  rw [hdirs, List.map_append, List.map_cons] at hnodup
  have hnot : ∀ e ∈ front, FileSystem.components e.1 ≠ FileSystem.components dir.1 := fun e he =>
    (List.nodup_append.mp hnodup).2.2 _ (List.mem_map_of_mem he) _ List.mem_cons_self
  obtain ⟨before, after, rfl⟩ := List.append_of_mem he
  rw [List.append_assoc] at hdirs
  have hmem : dir.1 ∈ rels plan := by
    rw [rels, hdirs]
    simp
  obtain ⟨e', he', heq⟩ := htree.parentsFirst before e (after ++ dir :: back) hdirs _ hbelow
    (htree.proper _ hmem) (hnot e he).symm
  exact hnot e' (List.mem_append_left _ he') heq

end Places

/-- Nothing has changed but at the places, and beneath them. -/
structure Spares (r : Restorer) (xs : List (List String)) (d₀ d : Disk) : Prop where
  outside : ∀ p, ¬ r.resolvedTarget <+: p → d.held p = d₀.held p
  others : ∀ p, (∀ x ∈ xs, ¬ x <+: p) → (d.held p).map Held.bare = (d₀.held p).map Held.bare
  inodes : ∀ i < d₀.next, (r.overwrite = false ∨ ∀ x ∈ xs, d₀.held x ≠ some (.file i)) →
    d.inodes i = d₀.inodes i
  kept : r.overwrite = false → ∀ p, d₀.held p ≠ none →
    (d.held p).map Held.bare = (d₀.held p).map Held.bare
  linked : ∀ x ∈ xs, ∀ i < d₀.next, d.held x = some (.file i) → ∃ y ∈ xs, d₀.held y = some (.file i)
  next : d₀.next ≤ d.next

theorem Spares.refl : r.Spares xs d₀ d₀ :=
  ⟨fun _ _ => rfl, fun _ _ => rfl, fun _ _ _ => rfl, fun _ _ _ => rfl,
    fun x hx _ _ hi => ⟨x, hx, hi⟩, le_rfl⟩

theorem Spares.around (h : r.Spares xs d₀ d) (hx : x ∈ xs) (hin : r.resolvedTarget <+: x.dropLast)
    (hsources : sources ⊆ xs) (ha : Around r.overwrite x sources d d') : r.Spares xs d₀ d' where
  outside p hp := by
    rw [ha.far p (fun hxp => hp ((hin.trans (List.dropLast_prefix x)).trans hxp)), h.outside p hp]
    rintro rfl
    exact hp hin
  others p hp := (ha.held (hp x hx)).trans (h.others p hp)
  inodes i hlt hi := by
    rw [ha.inodes i (hlt.trans_le h.next), h.inodes i hlt hi]
    refine hi.imp_right fun hnone hheld => ?_
    obtain ⟨y, hy, hyi⟩ := h.linked x hx i hlt hheld
    exact hnone y hy hyi
  kept hover p hp := by
    have hbefore := h.kept hover p hp
    have hthere : d.held p ≠ none := by
      intro hnone
      rw [hnone] at hbefore
      exact hp (Option.map_eq_none_iff.mp hbefore.symm)
    exact (ha.kept hover p hthere).trans hbefore
  linked y hy i hlt hi := by
    by_cases hxy : y = x
    · subst hxy
      rcases ha.linked i hi (hlt.trans_le h.next) with hbefore | ⟨q, hq, hqi⟩
      · exact h.linked y hy i hlt hbefore
      · exact h.linked q (hsources hq) i hlt hqi
    · refine h.linked y hy i hlt ?_
      by_cases hbelow : x <+: y
      · rcases ha.beneath y hbelow hxy with hsame | hgone
        · rwa [hsame] at hi
        · rw [hgone] at hi
          cases hi
      · exact (ha.file hbelow).mp hi
  next := h.next.trans ha.next

theorem Spares.alters (h : r.Spares xs d₀ d) (hx : x ∈ xs) (hin : r.resolvedTarget <+: x)
    (hfile : ∀ i, d.held x = some (.file i) → d₀.next ≤ i ∨ r.overwrite = true)
    (ha : Alters x d d') : r.Spares xs d₀ d' where
  outside p hp := by
    rw [ha.held p, h.outside p hp]
    rintro rfl
    exact hp hin
  others p hp := (ha.bare_all p).trans (h.others p hp)
  inodes i hlt hi := by
    rw [ha.inodes i, h.inodes i hlt hi]
    intro hheld
    rcases hi with hover | hnone
    · rcases hfile i hheld with hle | htrue
      · omega
      · rw [hover] at htrue
        cases htrue
    · obtain ⟨y, hy, hyi⟩ := h.linked x hx i hlt hheld
      exact hnone y hy hyi
  kept hover p hp := (ha.bare_all p).trans (h.kept hover p hp)
  linked y hy i hlt hi := h.linked y hy i hlt (ha.file.mp hi)
  next := h.next.trans_eq ha.next.symm

/-- How far a restore has come: `done` are the places of the plan that it is done with. -/
structure Standing (r : Restorer) (plan : FileMirror.Restorer.Plan) (d₀ : Disk) (done : List (List String)) (d : Disk) :
    Prop where
  spares : r.Spares ((rels plan).map r.spot) d₀ d
  known : done ⊆ (rels plan).map r.spot
  later : ∀ rel ∈ rels plan, r.spot rel ∉ done → d.held (r.spot rel) = none ∨
    (d.held (r.spot rel)).map Held.bare = (d₀.held (r.spot rel)).map Held.bare
  dirs : ∀ dir ∈ plan.dirs, r.spot dir.1 ∈ done → d.IsDir (r.spot dir.1)
  symlinks : ∀ link ∈ plan.symlinks, r.spot link.1 ∈ done → ∃ target,
    link.2.linkTarget = some target ∧ d.held (r.spot link.1) = some (.symlink target)

theorem standing_nil : r.Standing plan d₀ [] d₀ :=
  ⟨.refl, by simp, fun _ _ _ => .inr rfl, by simp, by simp⟩

theorem Standing.around (htree : Treelike plan) (h : r.Standing plan d₀ done d)
    (hrel : rel ∈ rels plan) (hdone : ∀ y ∈ done, ¬ r.spot rel <+: y)
    (hsources : sources ⊆ (rels plan).map r.spot)
    (ha : Around r.overwrite (r.spot rel) sources d d')
    (hdir : ∀ dir ∈ plan.dirs, dir.1 = rel → d'.IsDir (r.spot rel))
    (hlink : ∀ link ∈ plan.symlinks, link.1 = rel → ∃ target, link.2.linkTarget = some target ∧
      d'.held (r.spot rel) = some (.symlink target)) :
    r.Standing plan d₀ (done ++ [r.spot rel]) d' where
  spares := h.spares.around (List.mem_map_of_mem hrel) (htree.within hrel) hsources ha
  known := List.append_subset.mpr ⟨h.known, by simpa using ⟨rel, hrel, rfl⟩⟩
  later other hother hnot := by
    rw [List.mem_append, List.mem_singleton, not_or] at hnot
    have hbefore := h.later other hother hnot.1
    by_cases hbelow : r.spot rel <+: r.spot other
    · rcases ha.beneath _ hbelow hnot.2 with hsame | hgone
      · rwa [hsame]
      · exact .inl hgone
    · have hsame := ha.held hbelow
      rcases hbefore with hnone | hheld
      · rw [hnone] at hsame
        exact .inl (Option.map_eq_none_iff.mp hsame)
      · exact .inr (hsame.trans hheld)
  dirs dir hmem hin := by
    rcases List.mem_append.mp hin with hbefore | hnow
    · exact (ha.isDir (hdone _ hbefore)).mpr (h.dirs dir hmem hbefore)
    · have heq := List.mem_singleton.mp hnow
      rw [heq]
      refine hdir dir hmem (htree.spot_injective ?_ hrel heq)
      exact List.mem_append_left _ (List.mem_map_of_mem hmem)
  symlinks link hmem hin := by
    rcases List.mem_append.mp hin with hbefore | hnow
    · obtain ⟨target, htarget, hheld⟩ := h.symlinks link hmem hbefore
      refine ⟨target, htarget, ?_⟩
      rwa [← bare_eq_symlink, ha.held (hdone _ hbefore), bare_eq_symlink]
    · have heq := List.mem_singleton.mp hnow
      rw [heq]
      refine hlink link hmem (htree.spot_injective ?_ hrel heq)
      exact List.mem_append_right _ (List.mem_append_left _ (List.mem_map_of_mem hmem))

theorem Standing.alters (h : r.Standing plan d₀ done d)
    (hrel : rel ∈ rels plan)
    (hfile : ∀ i, d.held (r.spot rel) = some (.file i) → d₀.next ≤ i ∨ r.overwrite = true)
    (ha : Alters (r.spot rel) d d') : r.Standing plan d₀ done d' where
  spares := h.spares.alters (List.mem_map_of_mem hrel) (List.prefix_append _ _) hfile ha
  known := h.known
  later other hother hnot := by
    rcases h.later other hother hnot with hnone | hheld
    · refine .inl (Option.map_eq_none_iff.mp ((ha.bare_all _).trans ?_))
      rw [hnone]
      rfl
    · exact .inr ((ha.bare_all _).trans hheld)
  dirs dir hmem hin := ha.isDir.mpr (h.dirs dir hmem hin)
  symlinks link hmem hin := by
    obtain ⟨target, htarget, hheld⟩ := h.symlinks link hmem hin
    refine ⟨target, htarget, ?_⟩
    rwa [← bare_eq_symlink, ha.bare_all, bare_eq_symlink]

theorem Standing.keeps (htree : Treelike plan) (hreach : r.Reaches d₀)
    (h : r.Standing plan d₀ done d) (hrel : rel ∈ rels plan)
    (habove : ∀ dir ∈ plan.dirs, FileSystem.components dir.1 <+: FileSystem.components rel →
      dir.1 ≠ rel → r.spot dir.1 ∈ done) : r.Keeps (r.path rel) (r.spot rel) d := by
  intro d' ha
  have hspares := h.spares.around (List.mem_map_of_mem hrel) (htree.within hrel) (by simp) ha
  have hbase : d'.IsDir r.resolvedTarget := by
    rw [isDir_iff, hspares.others, ← isDir_iff]
    · exact hreach.1
    · intro x hx hprefix
      obtain ⟨other, hother, rfl⟩ := List.mem_map.mp hx
      refine htree.proper other hother (List.length_eq_zero_iff.mp ?_)
      have hle := hprefix.length_le
      rw [spot, List.length_append] at hle
      omega
  refine leads_of_open (hreach.2 d' hspares.outside hbase) (htree.plain rel hrel)
    (htree.proper rel hrel) ?_
  intro q hq hne
  by_cases hnil : q = []
  · rwa [hnil, List.append_nil]
  · obtain ⟨dir, hdir, rfl⟩ := htree.above rel hrel q hq hnil hne
    have hother : dir.1 ≠ rel := by
      rintro rfl
      exact hne rfl
    refine (ha.isDir ?_).mpr (h.dirs dir hdir (habove dir hdir hq hother))
    intro hprefix
    have hback := (List.prefix_append_right_inj _).mp hprefix
    exact hne (hq.eq_of_length_le hback.length_le)

theorem Standing.leaf (htree : Treelike plan) (h : r.Standing plan d₀ done d)
    (hrel : rel ∈ plan.symlinks.map Prod.fst ++ plan.files.map Prod.fst) (hnot : r.spot rel ∉ done) :
    ∀ y ∈ done, ¬ r.spot rel <+: y := by
  intro y hy
  obtain ⟨other, hother, rfl⟩ := List.mem_map.mp (h.known hy)
  refine htree.leaf hrel hother ?_
  rintro rfl
  exact hnot hy

theorem Standing.keeps_all (htree : Treelike plan) (hreach : r.Reaches d₀)
    (h : r.Standing plan d₀ done d) (hrel : rel ∈ rels plan)
    (hdirs : ∀ dir ∈ plan.dirs, r.spot dir.1 ∈ done) : r.Keeps (r.path rel) (r.spot rel) d :=
  h.keeps htree hreach hrel fun dir hdir _ _ => hdirs dir hdir

theorem Standing.around_file {f : String × TreeFormat.Node} (htree : Treelike plan)
    (h : r.Standing plan d₀ done d) (hf : f ∈ plan.files) (hnot : r.spot f.1 ∉ done)
    (hsources : sources ⊆ (rels plan).map r.spot)
    (ha : Around r.overwrite (r.spot f.1) sources d d') :
    r.Standing plan d₀ (done ++ [r.spot f.1]) d' := by
  have hleaf : f.1 ∈ plan.symlinks.map Prod.fst ++ plan.files.map Prod.fst :=
    List.mem_append_right _ (List.mem_map_of_mem hf)
  refine h.around htree (List.mem_append_right _ hleaf) (h.leaf htree hleaf hnot) hsources ha ?_ ?_
  · exact fun dir hdir heq => absurd (congrArg _ heq) (htree.not_dir hleaf hdir)
  · intro link hlink heq
    have hall := List.Nodup.of_map _ htree.distinct
    have hdisjoint := (List.nodup_append.mp (List.nodup_append.mp hall).2.1).2.2
    exact absurd heq (hdisjoint _ (List.mem_map_of_mem hlink) _ (List.mem_map_of_mem hf))

end Restorer

end FileMirror.Restore
