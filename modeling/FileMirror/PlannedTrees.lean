import FileMirror.RestoreSpares

set_option autoImplicit false

namespace FileMirror.Restorer

open TreeFormat

variable {includes excludes : PathMatcher} {repo : Repository} {nodes : List TreeFormat.Node}
  {dir rel : String} {included : Bool} {vs : List Visit} {trail : List String} {n : TreeFormat.Node}

theorem EntryIn.head (h : EntryIn repo nodes trail n) :
    ∃ m ∈ nodes, ∃ below, trail = m.name :: below := by
  cases h with
  | here hn => exact ⟨n, hn, [], rfl⟩
  | inside hd => exact ⟨_, hd, _, rfl⟩

theorem EntryIn.valid (h : EntryIn repo nodes trail n) (hvalid : ∀ n ∈ nodes, n.Valid) : n.Valid := by
  induction h with
  | here hn => exact hvalid _ hn
  | inside hd hdir hid htree h ih => exact ih (loadTree_canonical htree).valid

theorem EntryIn.plain (h : EntryIn repo nodes trail n) (hvalid : ∀ n ∈ nodes, n.Valid) :
    Disk.Plain trail := by
  induction h with
  | here hn => exact List.forall_mem_singleton.mpr ⟨(hvalid _ hn).dot, (hvalid _ hn).dotDot⟩
  | inside hd hdir hid htree h ih =>
      exact List.forall_mem_cons.mpr
        ⟨⟨(hvalid _ hd).dot, (hvalid _ hd).dotDot⟩, ih (loadTree_canonical htree).valid⟩

theorem components_relOf (h : Proper trail) (hne : trail ≠ []) :
    FileSystem.components (relOf "" trail) = trail := by
  have hsplit : (relOf "" trail).toList.splitOn '/' = trail.map String.toList := by
    rw [toList_relOf h]
    refine List.splitOn_intercalate _ (fun part hpart => (h.chars part hpart).2) ?_
    exact fun hnil => hne (List.map_eq_nil_iff.mp hnil)
  have hsame : (trail.map String.toList).map String.ofList = trail := by simp
  unfold FileSystem.components
  rw [hsplit, hsame, List.filter_eq_self]
  exact fun name hname => decide_eq_true (h name hname).1

theorem visits_trails (h : Visits includes excludes repo nodes dir included vs)
    (hnames : (nodes.map TreeFormat.Node.name).Nodup) :
    ∃ ts : List (List String × Visit), ts.map Prod.snd = vs ∧ (ts.map Prod.fst).Nodup ∧
      ∀ t ∈ ts, EntryIn repo nodes t.1 t.2.node ∧ t.2.rel = relOf dir t.1 := by
  have hsplit : ∀ {node : TreeFormat.Node} {rest : List TreeFormat.Node} {t : List String}
      {n : TreeFormat.Node}, ((node :: rest).map TreeFormat.Node.name).Nodup →
        EntryIn repo rest t n → ∀ below, t ≠ node.name :: below := by
    rintro node rest t n hnodup ht below rfl
    obtain ⟨m, hm, _, heq⟩ := ht.head
    rw [List.map_cons, List.nodup_cons, (List.cons.inj heq).1] at hnodup
    exact hnodup.1 (List.mem_map_of_mem hm)
  induction h with
  | nil => exact ⟨[], rfl, .nil, by simp⟩
  | excluded hmatch h ih =>
      obtain ⟨ts, hts, hnodup, hall⟩ := ih (List.nodup_cons.mp hnames).2
      exact ⟨ts, hts, hnodup, fun t ht =>
        ⟨(hall t ht).1.mono (List.subset_cons_self _ _), (hall t ht).2⟩⟩
  | @leaf node rest dir included vs hmatch htype h ih =>
      obtain ⟨ts, hts, hnodup, hall⟩ := ih (List.nodup_cons.mp hnames).2
      refine ⟨([node.name], _) :: ts, by rw [List.map_cons, hts], ?_, ?_⟩
      · refine List.nodup_cons.mpr ⟨fun hin => ?_, hnodup⟩
        obtain ⟨t, ht, heq⟩ := List.mem_map.mp hin
        exact hsplit hnames (hall t ht).1 [] heq
      · refine List.forall_mem_cons.mpr ⟨⟨.here List.mem_cons_self, rfl⟩, fun t ht => ?_⟩
        exact ⟨(hall t ht).1.mono (List.subset_cons_self _ _), (hall t ht).2⟩
  | @dir node rest dir included id tree vs ws hmatch htype hid htree hbelow h ihbelow ih =>
      obtain ⟨ts, hts, hnodup, hall⟩ := ih (List.nodup_cons.mp hnames).2
      obtain ⟨us, hus, hunodup, huall⟩ := ihbelow (by
        refine List.nodup_iff_pairwise_ne.mpr (List.pairwise_map.mpr ?_)
        exact (loadTree_canonical htree).increasing.imp ne_of_lt)
      refine ⟨([node.name], ⟨childPath dir node.name, node,
        included || includes.«matches» (childPath dir node.name)⟩) ::
          (us.map (fun u => (node.name :: u.1, u.2)) ++ ts), ?_, ?_, ?_⟩
      · rw [List.map_cons, List.map_append, List.map_map, hts, ← hus]
        rfl
      · rw [List.map_cons, List.map_append, List.map_map]
        have hmapped : us.map (Prod.fst ∘ fun u => (node.name :: u.1, u.2)) =
            (us.map Prod.fst).map (List.cons node.name) := by
          rw [List.map_map]
          rfl
        rw [hmapped]
        refine List.nodup_cons.mpr ⟨fun hin => ?_, List.nodup_append.mpr ⟨?_, hnodup, ?_⟩⟩
        · rcases List.mem_append.mp hin with hin | hin
          · obtain ⟨below, hbelow, heq⟩ := List.mem_map.mp hin
            obtain ⟨u, hu, rfl⟩ := List.mem_map.mp hbelow
            exact (huall u hu).1.ne_nil (List.cons.inj heq).2
          · obtain ⟨t, ht, heq⟩ := List.mem_map.mp hin
            exact hsplit hnames (hall t ht).1 [] heq
        · exact hunodup.map (List.cons_injective)
        · intro a ha b hb heq
          obtain ⟨below, -, rfl⟩ := List.mem_map.mp ha
          obtain ⟨t, ht, rfl⟩ := List.mem_map.mp hb
          exact hsplit hnames (hall t ht).1 below heq.symm
      · refine List.forall_mem_cons.mpr ⟨⟨.here List.mem_cons_self, rfl⟩, ?_⟩
        refine List.forall_mem_append.mpr ⟨fun t ht => ?_, fun t ht => ?_⟩
        · obtain ⟨u, hu, rfl⟩ := List.mem_map.mp ht
          exact ⟨.inside List.mem_cons_self htype hid htree (huall u hu).1, (huall u hu).2⟩
        · exact ⟨(hall t ht).1.mono (List.subset_cons_self _ _), (hall t ht).2⟩

end FileMirror.Restorer

namespace FileMirror.Restore.Restorer

open FileMirror.Restorer TreeFormat

variable {includes excludes : PathMatcher} {repo : FileMirror.Restorer.Repository}
  {nodes : List TreeFormat.Node} {vs : List Visit} {plan : FileMirror.Restorer.Plan} {rel : String}

theorem planned_entry (h : Plans repo nodes includes excludes plan) (hrel : rel ∈ rels plan) :
    ∃ trail n deeper m, EntryIn repo nodes trail n ∧ rel = relOf "" trail ∧
      EntryIn repo nodes deeper m ∧ trail <+: deeper ∧ Selected includes excludes deeper := by
  rcases List.mem_append.mp hrel with hdir | hleaf
  · obtain ⟨⟨_, n, selected⟩, hin, rfl⟩ := List.mem_map.mp hdir
    obtain ⟨trail, hentry, heq, -, -, -, hwhy⟩ := (h.dirs _ _ _).mp hin
    rcases hwhy with hselected | ⟨deeper, m, hdeep, hp, -, hselected⟩
    · exact ⟨trail, n, trail, n, hentry, heq, hentry, List.prefix_rfl, hselected⟩
    · exact ⟨trail, n, deeper, m, hentry, heq, hdeep, hp, hselected⟩
  · rcases List.mem_append.mp hleaf with hlink | hfile
    · obtain ⟨⟨_, n⟩, hin, rfl⟩ := List.mem_map.mp hlink
      obtain ⟨trail, hentry, heq, -, hselected⟩ := (h.symlinks _ _).mp hin
      exact ⟨trail, n, trail, n, hentry, heq, hentry, List.prefix_rfl, hselected⟩
    · obtain ⟨⟨_, n⟩, hin, rfl⟩ := List.mem_map.mp hfile
      obtain ⟨trail, hentry, heq, -, hselected⟩ := (h.files _ _).mp hin
      exact ⟨trail, n, trail, n, hentry, heq, hentry, List.prefix_rfl, hselected⟩

theorem rels_visits (vs : List Visit) : ∃ dirs symlinks files : List Visit, dirs.Sublist vs ∧
    symlinks.Sublist vs ∧ files.Sublist vs ∧ (∀ v ∈ dirs, v.node.nodeType = .dir) ∧
      (∀ v ∈ symlinks, v.node.nodeType = .symlink) ∧ (∀ v ∈ files, v.node.nodeType = .file) ∧
        rels (pruneDirs (FileMirror.Restorer.Plan.extend ⟨[], [], []⟩ vs)) =
          (dirs ++ (symlinks ++ files)).map Visit.rel := by
  have hleaf : ∀ type, ∀ v ∈ vs.filter fun v => v.node.nodeType = type && v.selected,
      v.node.nodeType = type := by
    intro type v hv
    have hboth := (List.mem_filter.mp hv).2
    rw [Bool.and_eq_true, decide_eq_true_eq] at hboth
    exact hboth.1
  obtain ⟨kept, hkept⟩ : ∃ kept : Visit → Bool, (pruneDirs (FileMirror.Restorer.Plan.extend ⟨[], [], []⟩ vs)).dirs =
      ((vs.filter fun v => v.node.nodeType = .dir).filter kept).map fun v =>
        (v.rel, v.node, v.selected) := by
    unfold pruneDirs
    dsimp only [FileMirror.Restorer.Plan.extend]
    rw [List.nil_append]
    exact ⟨_, List.filter_map⟩
  refine ⟨(vs.filter fun v => v.node.nodeType = .dir).filter kept,
    vs.filter fun v => v.node.nodeType = .symlink && v.selected,
    vs.filter fun v => v.node.nodeType = .file && v.selected,
    List.filter_sublist.trans List.filter_sublist, List.filter_sublist, List.filter_sublist, ?_,
    hleaf .symlink, hleaf .file, ?_⟩
  · exact fun v hv => of_decide_eq_true (List.mem_filter.mp (List.mem_filter.mp hv).1).2
  · rw [rels, hkept, List.map_append, List.map_append, List.map_map]
    unfold pruneDirs
    dsimp only [FileMirror.Restorer.Plan.extend]
    rw [List.nil_append, List.nil_append, List.map_map, List.map_map]
    rfl

theorem rels_distinct (hvalid : ∀ n ∈ nodes, n.Valid)
    (hnames : (nodes.map TreeFormat.Node.name).Nodup)
    (h : Visits includes excludes repo nodes "" includes.isEmpty vs) :
    ((rels (pruneDirs (FileMirror.Restorer.Plan.extend ⟨[], [], []⟩ vs))).map FileSystem.components).Nodup := by
  have hall : (vs.map fun v => FileSystem.components v.rel).Nodup := by
    obtain ⟨ts, rfl, hnodup, hts⟩ := visits_trails h hnames
    rw [List.map_map]
    refine (List.map_congr_left fun t ht => ?_).symm ▸ hnodup
    obtain ⟨hentry, hrel⟩ := hts t ht
    dsimp only [Function.comp]
    rw [hrel, components_relOf (hentry.proper hvalid) hentry.ne_nil]
  obtain ⟨dirs, symlinks, files, hdirs, hsymlinks, hfiles, hdirType, hlinkType, hfileType, heq⟩ :=
    rels_visits vs
  have hapart : ∀ u ∈ vs, ∀ v ∈ vs, u.node.nodeType ≠ v.node.nodeType →
      FileSystem.components u.rel ≠ FileSystem.components v.rel := by
    intro u hu v hv htype hsame
    rw [List.inj_on_of_nodup_map hall hu hv hsame] at htype
    exact htype rfl
  rw [heq, List.map_map, List.map_append, List.map_append]
  refine List.nodup_append.mpr ⟨hall.sublist (hdirs.map _), List.nodup_append.mpr
    ⟨hall.sublist (hsymlinks.map _), hall.sublist (hfiles.map _), ?_⟩, ?_⟩
  · intro a ha b hb
    obtain ⟨u, hu, rfl⟩ := List.mem_map.mp ha
    obtain ⟨v, hv, rfl⟩ := List.mem_map.mp hb
    refine hapart u (hsymlinks.subset hu) v (hfiles.subset hv) ?_
    rw [hlinkType u hu, hfileType v hv]
    decide
  · intro a ha b hb
    obtain ⟨u, hu, rfl⟩ := List.mem_map.mp ha
    rw [← List.map_append] at hb
    obtain ⟨v, hv, rfl⟩ := List.mem_map.mp hb
    rcases List.mem_append.mp hv with hv | hv
    · refine hapart u (hdirs.subset hu) v (hsymlinks.subset hv) ?_
      rw [hdirType u hu, hlinkType v hv]
      decide
    · refine hapart u (hdirs.subset hu) v (hfiles.subset hv) ?_
      rw [hdirType u hu, hfileType v hv]
      decide

theorem treelike_plan (hvalid : ∀ n ∈ nodes, n.Valid)
    (hnames : (nodes.map TreeFormat.Node.name).Nodup)
    (h : Visits includes excludes repo nodes "" includes.isEmpty vs) :
    Treelike (pruneDirs (FileMirror.Restorer.Plan.extend ⟨[], [], []⟩ vs)) := by
  have hplans := pruned_plans hvalid h
  have hcomponents : ∀ {trail : List String} {n : TreeFormat.Node}, EntryIn repo nodes trail n →
      FileSystem.components (relOf "" trail) = trail := fun hentry =>
    components_relOf (hentry.proper hvalid) hentry.ne_nil
  refine ⟨?_, ?_, rels_distinct hvalid hnames h, ?_, ?_, ?_, ?_, ?_⟩
  · intro rel hrel
    obtain ⟨trail, n, -, -, hentry, rfl, -⟩ := planned_entry hplans hrel
    rw [hcomponents hentry]
    exact hentry.plain hvalid
  · intro rel hrel
    obtain ⟨trail, n, -, -, hentry, rfl, -⟩ := planned_entry hplans hrel
    rw [hcomponents hentry]
    exact hentry.ne_nil
  · intro rel hrel p hp hne hproper
    obtain ⟨trail, n, deeper, m, hentry, rfl, hdeep, hbelow, hselected⟩ :=
      planned_entry hplans hrel
    rw [hcomponents hentry] at hp hproper
    obtain ⟨d, selected, hd⟩ := hplans.above deeper m hdeep hselected p (hp.trans hbelow) hne (by
      rintro rfl
      exact hproper (hp.eq_of_length_le hbelow.length_le))
    exact ⟨_, hd, components_relOf ((hentry.proper hvalid).shorter hp) hne⟩
  · rintro front ⟨rel, n, selected⟩ back hsplit p hp hne hproper
    have hmem : (rel, n, selected) ∈ (pruneDirs (FileMirror.Restorer.Plan.extend ⟨[], [], []⟩ vs)).dirs :=
      mem_of_split hsplit
    obtain ⟨trail, hentry, rfl, -⟩ := (hplans.dirs _ _ _).mp hmem
    dsimp only at hp hproper
    rw [hcomponents hentry] at hp hproper
    obtain ⟨e, he, heq⟩ := hplans.parentsFirst front _ n selected back hsplit trail hentry rfl p hp
      hne hproper
    refine ⟨e, he, ?_⟩
    rw [heq, components_relOf ((hentry.proper hvalid).shorter hp) hne]
  · rintro ⟨rel, n, selected⟩ hdir
    obtain ⟨-, -, -, htype, -⟩ := (hplans.dirs _ _ _).mp hdir
    dsimp only
    rw [htype]
    decide
  · rintro ⟨rel, n⟩ hlink
    obtain ⟨trail, hentry, -, htype, -⟩ := (hplans.symlinks _ _).mp hlink
    exact (hentry.valid hvalid).symlink htype
  · rintro ⟨rel, n⟩ hfile
    obtain ⟨-, -, -, htype, -⟩ := (hplans.files _ _).mp hfile
    dsimp only
    rw [htype]
    decide

theorem planRestore_visits {globs : Globs} {fuel : ℕ} {id : ObjectId} {includes excludes : List String}
    (h : planRestore globs repo fuel id includes excludes = some (.ok plan)) :
    ∃ inc exc tree vs, repo.loadTree id = .ok tree ∧
      Visits inc exc repo tree.nodes "" inc.isEmpty vs ∧
        plan = pruneDirs (FileMirror.Restorer.Plan.extend ⟨[], [], []⟩ vs) := by
  unfold planRestore at h
  cases hinc : PathMatcher.new globs repo.serde.debug includes with
  | error e =>
      rw [hinc] at h
      cases h
  | ok inc =>
      cases hexc : PathMatcher.new globs repo.serde.debug excludes with
      | error e =>
          rw [hinc, hexc] at h
          cases h
      | ok exc =>
          rw [hinc, hexc] at h
          obtain ⟨result, hwalk, hresult⟩ := Option.map_eq_some_iff.mp h
          cases result with
          | error e => cases hresult
          | ok walked =>
              cases hresult
              obtain ⟨tree, vs, htree, hvs, rfl⟩ := planTree_visits hwalk
              exact ⟨inc, exc, tree, vs, htree, hvs, rfl⟩

theorem planRestore_treelike {globs : Globs} {fuel : ℕ} {id : ObjectId} {includes excludes : List String}
    (h : planRestore globs repo fuel id includes excludes = some (.ok plan)) : Treelike plan := by
  obtain ⟨inc, exc, tree, vs, htree, hvs, rfl⟩ := planRestore_visits h
  have hcanonical := loadTree_canonical htree
  refine treelike_plan hcanonical.valid ?_ hvs
  refine List.nodup_iff_pairwise_ne.mpr (List.pairwise_map.mpr ?_)
  exact hcanonical.increasing.imp ne_of_lt

end FileMirror.Restore.Restorer
