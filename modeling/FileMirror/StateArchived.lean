import FileMirror.ArchivedContent

set_option autoImplicit false

namespace FileMirror

open SnapNode

namespace FileSystem

variable {μ : Type} {fs : FileSystem μ} {path place target : List String} {node : FsNode μ}
  {links : ℕ}

theorem follow_last {again other : List String → List String → Option (List String)}
    (hagain : ∀ path place, again path place = some target → other path place = some target)
    (hnode : fs.root.descend target = some node) (hlink : ∀ info link, node ≠ .symlink info link)
    (h : fs.follow false again path place = some target) :
    fs.follow true other path place = some target := by
  induction path generalizing place with
  | nil => exact h
  | cons name rest ih =>
      rw [follow] at h ⊢
      by_cases hdot : name = "."
      · rw [if_pos hdot] at h ⊢
        exact ih h
      by_cases hdots : name = ".."
      · rw [if_neg hdot, if_pos hdots] at h ⊢
        exact ih h
      rw [if_neg hdot, if_neg hdots] at h ⊢
      obtain hnone | ⟨next, hnext⟩ := Option.eq_none_or_eq_some (fs.root.descend (place ++ [name]))
      · rw [hnone] at h
        cases h
      rw [hnext] at h ⊢
      cases next with
      | dir info children => exact ih h
      | symlink info link =>
          dsimp only at h ⊢
          rw [if_neg fun hlast => Bool.noConfusion hlast.2]
          by_cases hlast : rest = [] ∧ false = false
          · rw [if_pos hlast, Option.some.injEq] at h
            rw [← h, hnext, Option.some.injEq] at hnode
            exact absurd hnode.symm (hlink info link)
          · rw [if_neg hlast] at h
            exact hagain _ _ h
      | file info => exact h
      | special => exact h

theorem resolve_last (hnode : fs.root.descend target = some node)
    (hlink : ∀ info link, node ≠ .symlink info link)
    (h : fs.resolve false links path place = some target) :
    fs.resolve true links path place = some target := by
  induction links generalizing path place with
  | zero =>
      refine follow_last ?_ hnode hlink h
      rintro path place ⟨⟩
  | succ links ih => exact follow_last (fun path place => ih) hnode hlink h

theorem realPath_beneath {rel : List String} {info : μ} (hnormal : Normal rel)
    (hplace : fs.resolve false maxSymlinks path [] = some place)
    (hfile : fs.root.descend (place ++ rel) = some (.file info)) :
    fs.realPath (path ++ rel) = some (place ++ rel) := by
  refine resolve_last hfile (fun _ _ hlink => by cases hlink) ?_
  cases rel with
  | nil =>
      rw [List.append_nil, List.append_nil]
      exact hplace
  | cons name rest => exact resolve_append hnormal (List.cons_ne_nil _ _) hplace hfile

theorem follow_exists {followLast : Bool}
    {again : List String → List String → Option (List String)}
    (hagain : ∀ path place, fs.root.descend place ≠ none → again path place = some target →
      fs.root.descend target ≠ none)
    (hplace : fs.root.descend place ≠ none)
    (h : fs.follow followLast again path place = some target) :
    fs.root.descend target ≠ none := by
  induction path generalizing place with
  | nil =>
      cases h
      exact hplace
  | cons name rest ih =>
      rw [follow] at h
      by_cases hdot : name = "."
      · rw [if_pos hdot] at h
        exact ih hplace h
      by_cases hdots : name = ".."
      · rw [if_neg hdot, if_pos hdots] at h
        refine ih ?_ h
        intro hnone
        cases hempty : place.isEmpty with
        | true =>
            rw [List.isEmpty_iff.mp hempty] at hnone
            cases hnone
        | false =>
            have hne : place ≠ [] := List.isEmpty_eq_false_iff.mp hempty
            rw [← List.dropLast_concat_getLast hne, FsNode.descend_append, hnone] at hplace
            exact hplace rfl
      rw [if_neg hdot, if_neg hdots] at h
      obtain hnone | ⟨next, hnext⟩ := Option.eq_none_or_eq_some (fs.root.descend (place ++ [name]))
      · rw [hnone] at h
        cases h
      have hthere : fs.root.descend (place ++ [name]) ≠ none := by
        rw [hnext]
        exact Option.some_ne_none next
      rw [hnext] at h
      cases next with
      | dir info children => exact ih hthere h
      | symlink info link =>
          dsimp only at h
          by_cases hlast : rest = [] ∧ followLast = false
          · rw [if_pos hlast, Option.some.injEq] at h
            exact h ▸ hthere
          · rw [if_neg hlast] at h
            refine hagain _ _ ?_ h
            split_ifs
            · exact Option.some_ne_none _
            · exact hplace
      | _ =>
          dsimp only at h
          split_ifs at h
          cases h
          exact hthere

theorem resolve_exists {followLast : Bool} (hplace : fs.root.descend place ≠ none)
    (h : fs.resolve followLast links path place = some target) :
    fs.root.descend target ≠ none := by
  induction links generalizing path place with
  | zero =>
      refine follow_exists ?_ hplace h
      rintro path place _ ⟨⟩
  | succ links ih => exact follow_exists (fun path place hplace => ih hplace) hplace h

end FileSystem

section Names

variable {μ : Type} {node next : FsNode μ} {path : List String}

theorem FsNode.Named.child {name : String} (h : node.Named) (hchild : node.child name = some next) :
    Proper name ∧ next.Named := by
  cases node with
  | dir info children =>
      change children.lookup name = some next at hchild
      change FsNode.NamedAll children at h
      induction children with
      | nil => cases hchild
      | cons entry children ih =>
          obtain ⟨other, child⟩ := entry
          rw [lookup_cons] at hchild
          split_ifs at hchild with hname
          · cases hchild
            exact ⟨hname ▸ h.1, h.2.1⟩
          · exact ih hchild h.2.2
  | _ => cases hchild

theorem FsNode.Named.descend (h : node.Named) (hnext : node.descend path = some next) :
    ∀ name ∈ path, Proper name := by
  induction path generalizing node with
  | nil => exact fun name hname => absurd hname List.not_mem_nil
  | cons name rest ih =>
      obtain ⟨child, hchild, hrest⟩ := Option.bind_eq_some_iff.mp hnext
      obtain ⟨hname, hchild⟩ := h.child hchild
      exact List.forall_mem_cons.mpr ⟨hname, ih hchild hrest⟩

theorem normal_of_proper (h : ∀ name ∈ path, Proper name) : FileSystem.Normal path :=
  fun name hname => ⟨(h name hname).2.1, (h name hname).2.2.1⟩

theorem splitOn_pathText (name : List Char) (hname : '/' ∉ name)
    (h : ∀ name ∈ path, Proper name) :
    (name ++ path.flatMap fun name => '/' :: name.toList).splitOn '/' =
      name :: path.map String.toList := by
  induction path generalizing name with
  | nil => simp [List.splitOn_eq_singleton hname]
  | cons other path ih =>
      obtain ⟨hother, hrest⟩ := List.forall_mem_cons.mp h
      rw [List.flatMap_cons, List.cons_append, List.splitOn_append_cons_self,
        List.splitOn_eq_singleton hname, ih other.toList hother.2.2.2 hrest]
      rfl

theorem cleanPath_proper (p : String) : ∀ name ∈ cleanPath p, Proper name := by
  intro name hname
  obtain ⟨hdot, hdots⟩ := cleanPath_normal p name hname
  obtain ⟨hpart, hne⟩ := List.mem_filter.mp (cleanPath_subset p hname)
  obtain ⟨chars, hchars, rfl⟩ := List.mem_map.mp hpart
  refine ⟨of_decide_eq_true hne, hdot, hdots, ?_⟩
  rw [String.toList_ofList]
  exact not_mem_splitOn hchars

theorem components_pathText (h : ∀ name ∈ path, Proper name) :
    FileSystem.components (pathText path) = path := by
  have hkept : ∀ path : List String, (∀ name ∈ path, Proper name) →
      (path.filter fun part => part ≠ "") = path := by
    intro path h
    rw [List.filter_eq_self]
    exact fun name hname => decide_eq_true (h name hname).1
  unfold pathText
  split_ifs with hpath
  · subst hpath
    decide +kernel
  · have hsplit := splitOn_pathText [] List.not_mem_nil h
    rw [List.nil_append] at hsplit
    unfold FileSystem.components
    rw [String.toList_ofList, hsplit, List.map_cons, List.map_map, List.filter_cons_of_neg (by simp)]
    have hback : path.map (String.ofList ∘ String.toList) = path := by simp
    rw [hback, hkept path h]

end Names

section State

variable {μ : Type} {host : Host μ} {root : String} {request : Request}
  {tree : List (String × SnapNode μ Content)} {real : List String} {w : Walk μ}

/-- No content that the snapshot holds was read from a file that really lives in the state
directory. -/
def LeavesStateOut (host : Host μ) (root : String)
    (tree : List (String × SnapNode μ Content)) : Prop :=
  ∀ real state x place, host.fs.canonicalize root = some real →
    host.fs.realPath (real ++ [".mirror"]) = some state → .read x ∈ contentsAll tree →
    host.fs.realPath x = some place → ¬ state <+: place

/-- The walk from the requested path takes no file that lies in the state directory: each is left out
under the name that the path gives it. -/
def Request.Guards (request : Request) (host : Host μ) (real path : List String) : Prop :=
  ∀ w state place rel info, request.walk host real = some w →
    host.fs.realPath (real ++ [".mirror"]) = some state →
    host.fs.resolve false FileSystem.maxSymlinks path [] = some place →
    host.fs.root.descend (place ++ rel) = some (.file info) → state <+: place ++ rel →
    ¬ w.Takes path rel info

theorem createSnapshot_some (h : createSnapshot host root request = some tree) :
    ∃ real w, host.fs.canonicalize root = some real ∧ request.walk host real = some w ∧
      w.archiveTrie host.fs [] (buildTrie (request.kept host real)) = some tree := by
  obtain ⟨real, hreal, h⟩ := Option.bind_eq_some_iff.mp h
  obtain ⟨w, hw, h⟩ := Option.bind_eq_some_iff.mp h
  split_ifs at h
  exact ⟨real, w, hreal, hw, h⟩

theorem Host.normal {place rel : List String} {node : FsNode μ} (host : Host μ)
    (h : host.fs.root.descend (place ++ rel) = some node) : FileSystem.Normal rel :=
  normal_of_proper fun name hname =>
    host.named.descend h name (List.mem_append_right _ hname)

theorem lstat_beneath {fs : FileSystem μ} {path place rel : List String} {info : μ}
    (hplace : fs.resolve false FileSystem.maxSymlinks path [] = some place)
    (hfile : fs.root.descend (place ++ rel) = some (.file info)) :
    ∃ node, fs.lstat path = some node ∧ node.descend rel = some (.file info) := by
  rw [FsNode.descend_append] at hfile
  obtain ⟨node, hnode, hlast⟩ := Option.bind_eq_some_iff.mp hfile
  exact ⟨node, Option.bind_eq_some_iff.mpr ⟨place, hplace, hnode⟩, hlast⟩

/-- Nothing of the state directory is in a snapshot exactly if each requested path leads to what is
there only past what the filters leave out. -/
theorem leavesStateOut_iff_guards (h : createSnapshot host root request = some tree) :
    LeavesStateOut host root tree ↔ ∀ real, host.fs.canonicalize root = some real →
      ∀ path ∈ request.kept host real, path ≠ [] → request.Guards host real path := by
  obtain ⟨real, w, hreal, hw, htree⟩ := createSnapshot_some h
  have hholds : ∀ x, .read x ∈ contentsAll tree ↔
      ∃ p ∈ request.kept host real, p ≠ [] ∧ w.ReadsUnder host.fs p x :=
    fun x => Walk.mem_archiveTrie kept_apart htree
  constructor
  · intro hout other hother path hpath hne walk state place rel info hwalk hstate hplace hfile hin
      htakes
    rw [hreal, Option.some.injEq] at hother
    subst hother
    rw [hw, Option.some.injEq] at hwalk
    subst hwalk
    obtain ⟨node, hnode, hlast⟩ := lstat_beneath hplace hfile
    have hread : .read (path ++ rel) ∈ contentsAll tree :=
      (hholds _).mpr ⟨path, hpath, hne, node, hnode, rel, info, hlast, rfl, htakes⟩
    have hbeneath := FileSystem.realPath_beneath (host.normal hfile) hplace hfile
    exact hout real state _ _ hreal hstate hread hbeneath hin
  · intro hguards other state x place hother hstate hread hplace hin
    rw [hreal, Option.some.injEq] at hother
    subst hother
    obtain ⟨path, hpath, hne, node, hlstat, rel, info, hlast, rfl, htakes⟩ := (hholds x).mp hread
    obtain ⟨target, htarget, hnode⟩ := Option.bind_eq_some_iff.mp hlstat
    have hfile : host.fs.root.descend (target ++ rel) = some (.file info) := by
      rw [FsNode.descend_append]
      exact Option.bind_eq_some_iff.mpr ⟨node, hnode, hlast⟩
    have hbeneath := FileSystem.realPath_beneath (host.normal hfile) htarget hfile
    rw [hbeneath, Option.some.injEq] at hplace
    subst hplace
    exact hguards real hreal path hpath hne w state target rel info hw hstate htarget hfile hin htakes

theorem Host.canonicalize_proper {path : String} (host : Host μ)
    (h : host.fs.canonicalize path = some real) : ∀ name ∈ real, Proper name := by
  have hroot : host.fs.root.descend [] ≠ none := Option.some_ne_none _
  have hthere : host.fs.root.descend real ≠ none := FileSystem.resolve_exists hroot h
  obtain ⟨node, hnode⟩ := Option.ne_none_iff_exists'.mp hthere
  exact host.named.descend hnode

theorem state_excluded (hw : request.walk host real = some w)
    (hreal : host.fs.canonicalize root = some real) (path : List String) (isDir : Bool)
    (hpath : real ++ [".mirror"] <+: path) : w.excluded path isDir = true := by
  obtain ⟨filters, hfilters, rfl⟩ := Option.map_eq_some_iff.mp hw
  obtain ⟨excludes, hexcludes, rfl⟩ := Option.map_eq_some_iff.mp hfilters
  have hproper : ∀ name ∈ real ++ [".mirror"], Proper name := by
    intro name hname
    obtain hname | hname := List.mem_append.mp hname
    · exact host.canonicalize_proper hreal name hname
    · rw [List.mem_singleton.mp hname]
      unfold Proper
      decide +kernel
  have hdir : real ++ [".mirror"] ∈ excludes.dirs := by
    unfold Excludes.new at hexcludes
    split_ifs at hexcludes
    cases hexcludes
    refine List.mem_map.mpr ⟨pathText (real ++ [".mirror"]), ?_, ?_⟩
    · refine List.mem_filter.mpr ⟨List.mem_append_right _ (List.mem_singleton_self _), ?_⟩
      unfold pathText
      rw [if_neg (List.append_ne_nil_of_right_ne_nil _ (List.cons_ne_nil _ _)), String.toList_ofList]
      cases real with
      | nil => rfl
      | cons name rest => rfl
    · rw [components_pathText hproper, List.filter_eq_self]
      exact fun name hname => decide_eq_true (hproper name hname).2.1
  have hany : excludes.dirs.any (fun dir => dir.isPrefixOf path) = true :=
    List.any_eq_true.mpr ⟨_, hdir, List.isPrefixOf_iff_prefix.mpr hpath⟩
  dsimp only
  unfold Excludes.excluded
  rw [hany, Bool.or_true, Bool.true_or]

/-- What the path leads to in the state directory lies beneath the path, under the canonical name of
the state directory. -/
def Host.SpellsState (host : Host μ) (real path : List String) : Prop :=
  ∀ state place rel info, host.fs.realPath (real ++ [".mirror"]) = some state →
    host.fs.resolve false FileSystem.maxSymlinks path [] = some place →
    host.fs.root.descend (place ++ rel) = some (.file info) → state <+: place ++ rel →
    rel ≠ [] ∧ real ++ [".mirror"] <+: path ++ rel

theorem spellsState_of_canonical {path : List String}
    (hstate : host.fs.realPath (real ++ [".mirror"]) = some (real ++ [".mirror"]))
    (hpath : host.fs.resolve false FileSystem.maxSymlinks path [] = some path)
    (hout : ¬ real ++ [".mirror"] <+: path) : host.SpellsState real path := by
  intro state place rel info hother hplace _ hin
  rw [hstate, Option.some.injEq] at hother
  rw [hpath, Option.some.injEq] at hplace
  subst hother hplace
  refine ⟨?_, hin⟩
  rintro rfl
  rw [List.append_nil] at hin
  exact hout hin

theorem guards_of_spells {path : List String} (hreal : host.fs.canonicalize root = some real)
    (h : host.SpellsState real path) : request.Guards host real path := by
  intro w state place rel info hw hstate hplace hfile hin htakes
  obtain ⟨hne, hname⟩ := h state place rel info hstate hplace hfile hin
  have hpass := htakes.passes rel [] (List.append_nil _).symm hne
  rw [state_excluded hw hreal _ _ hname] at hpass
  cases hpass

/-- No exclude but that of the state directory, which is a pattern without wildcards, and every file
is read. -/
structure Request.Bare (request : Request) (host : Host μ) (real : List String) : Prop where
  excludes : request.excludes = []
  mirrorignore : request.mirrorignore = false
  literal : ∀ text, host.glob.isMatch (pathText (real ++ [".mirror"])) text = true →
    text = pathText (real ++ [".mirror"])
  reads : ∀ path, host.fails path = false
  plain : ∀ info, host.stub info = false

theorem Request.Bare.excluded (h : request.Bare host real) (hw : request.walk host real = some w)
    (hreal : ∀ name ∈ real, Proper name) {path : List String} {isDir : Bool}
    (hpath : ∀ name ∈ path, Proper name) (hout : ¬ real ++ [".mirror"] <+: path) :
    w.excluded path isDir = false := by
  have hmirror : ∀ name ∈ real ++ [".mirror"], Proper name := by
    intro name hname
    obtain hname | hname := List.mem_append.mp hname
    · exact hreal name hname
    · rw [List.mem_singleton.mp hname]
      unfold Proper
      decide +kernel
  have hcomponents : ((FileSystem.components (pathText (real ++ [".mirror"]))).filter
      fun part => part ≠ ".") = real ++ [".mirror"] := by
    rw [components_pathText hmirror, List.filter_eq_self]
    exact fun name hname => decide_eq_true (hmirror name hname).2.1
  obtain ⟨filters, hfilters, rfl⟩ := Option.map_eq_some_iff.mp hw
  obtain ⟨excludes, hexcludes, rfl⟩ := Option.map_eq_some_iff.mp hfilters
  unfold Excludes.new at hexcludes
  split_ifs at hexcludes
  cases hexcludes
  dsimp only
  rw [h.mirrorignore, Bool.false_and, Bool.or_false, h.excludes, List.nil_append, Excludes.excluded,
    Bool.or_eq_false_iff, Bool.or_eq_false_iff]
  refine ⟨⟨?_, ?_⟩, ?_⟩
  · -- a name has no slash
    rw [Option.any_eq_false]
    intro name hname
    rw [List.any_eq_false]
    intro pattern hpattern hmatch
    rw [List.mem_singleton.mp hpattern] at hmatch
    have hslash : '/' ∈ name.toList := by
      rw [h.literal name hmatch, pathText,
        if_neg (List.append_ne_nil_of_right_ne_nil _ (List.cons_ne_nil _ _)), String.toList_ofList]
      exact List.mem_flatMap.mpr ⟨".mirror", List.mem_append_right _ List.mem_cons_self,
        List.mem_cons_self⟩
    exact (hpath name (List.mem_of_getLast? hname)).2.2.2 hslash
  · rw [List.any_eq_false]
    intro pattern hpattern hmatch
    rw [List.mem_singleton.mp hpattern] at hmatch
    have hsame := congrArg FileSystem.components (h.literal _ hmatch)
    rw [components_pathText hpath, components_pathText hmirror] at hsame
    exact hout (hsame ▸ List.prefix_refl _)
  · rw [List.any_eq_false]
    intro dir hdir hprefix
    obtain ⟨pattern, hpattern, rfl⟩ := List.mem_map.mp hdir
    rw [List.mem_singleton.mp (List.mem_of_mem_filter hpattern), hcomponents] at hprefix
    exact hout (List.isPrefixOf_iff_prefix.mp hprefix)

theorem spells_of_guards {path : List String} (hbare : request.Bare host real)
    (hreal : ∀ name ∈ real, Proper name) (hpath : ∀ name ∈ path, Proper name)
    (hw : request.walk host real = some w) (h : request.Guards host real path) :
    host.SpellsState real path := by
  intro state place rel info hstate hplace hfile hin
  by_contra hnot
  have hrel : ∀ name ∈ rel, Proper name := fun name hname =>
    host.named.descend hfile name (List.mem_append_right _ hname)
  refine h w state place rel info hw hstate hplace hfile hin ⟨?_, ?_, ?_⟩
  · rintro q r rfl hq
    refine hbare.excluded hw hreal ?_ ?_
    · intro name hname
      obtain hname | hname := List.mem_append.mp hname
      · exact hpath name hname
      · exact hrel name (List.mem_append_left _ hname)
    · intro hprefix
      refine hnot ⟨List.append_ne_nil_of_left_ne_nil hq r, ?_⟩
      rw [← List.append_assoc]
      exact hprefix.trans (List.prefix_append _ _)
  · intro q r _
    obtain ⟨filters, -, rfl⟩ := Option.map_eq_some_iff.mp hw
    exact hbare.reads _
  · rintro q name rfl
    obtain ⟨filters, -, rfl⟩ := Option.map_eq_some_iff.mp hw
    exact if_neg (ne_of_eq_of_ne (hbare.plain info) Bool.false_ne_true)

/-- Whatever the settings, nothing of the state directory is in a snapshot where the requested paths
lead to what is there under its canonical name; and that is needed where nothing else is left out. -/
theorem state_left_out_iff (h : createSnapshot host root request = some tree)
    (hreal : host.fs.canonicalize root = some real) :
    ((∀ path ∈ request.kept host real, path ≠ [] → host.SpellsState real path) →
      LeavesStateOut host root tree) ∧
    (request.Bare host real → LeavesStateOut host root tree →
      ∀ path ∈ request.kept host real, path ≠ [] → host.SpellsState real path) := by
  constructor
  · intro hspells
    refine (leavesStateOut_iff_guards h).mpr fun other hother path hpath hne => ?_
    rw [hreal, Option.some.injEq] at hother
    subst hother
    exact guards_of_spells hreal (hspells path hpath hne)
  · intro hbare hout path hpath hne
    obtain ⟨other, w, hother, hw, -⟩ := createSnapshot_some h
    rw [hreal, Option.some.injEq] at hother
    subst hother
    obtain ⟨p, -, rfl⟩ := kept_clean hpath
    exact spells_of_guards hbare (host.canonicalize_proper hreal) (cleanPath_proper p) hw
      ((leavesStateOut_iff_guards h).mp hout real hreal _ hpath hne)

end State

namespace StateExamples

/-- A mirror of `/data/home/mirror`, with a link to `/data`. -/
def linked : FileSystem Unit where
  info := ()
  children :=
    [("data", .dir () [("home", .dir () [("mirror", .dir ()
        [(".mirror", .dir () [("passphrase", .file ())]), ("a", .file ())])])]),
      ("link", .symlink () "/data")]
  distinct := by simp [FsNode.Distinct, FsNode.DistinctAll]

theorem linked_named : linked.root.Named := by
  unfold FileSystem.root linked
  simp only [FsNode.Named, FsNode.NamedAll, Proper]
  decide +kernel

def machine : Host Unit where
  fs := linked
  named := linked_named
  glob := { builds := fun _ => true, isMatch := fun pattern text => pattern == text }
  rules := fun _ => none
  stub := fun _ => false
  fails := fun _ => false

def requestOf (paths : List String) : Request where
  paths := paths
  excludes := []
  mirrorignore := true
  offloaded := false

def stateDir : List String := ["data", "home", "mirror", ".mirror"]

end StateExamples

open StateExamples in
/-- The mirror's root is backed up without the state directory. -/
theorem state_left_out_root :
    ∃ tree, createSnapshot machine "/data/home/mirror" (requestOf []) = some tree ∧
      .read ["data", "home", "mirror", "a"] ∈ contentsAll tree ∧
      LeavesStateOut machine "/data/home/mirror" tree := by
  obtain ⟨tree, htree⟩ := Option.isSome_iff_exists.mp
    (show (createSnapshot machine "/data/home/mirror" (requestOf [])).isSome = true by decide +kernel)
  have hheld : ((createSnapshot machine "/data/home/mirror" (requestOf [])).map contentsAll) =
      some [.read ["data", "home", "mirror", "a"]] := by decide +kernel
  rw [htree, Option.map_some, Option.some.injEq] at hheld
  refine ⟨tree, htree, by rw [hheld]; exact List.mem_singleton_self _, ?_⟩
  have hcanonical : machine.fs.canonicalize "/data/home/mirror" = some ["data", "home", "mirror"] := by
    decide +kernel
  refine (state_left_out_iff htree hcanonical).1 fun path hpath _ => ?_
  have hkept : (requestOf []).kept machine ["data", "home", "mirror"] = [["data", "home", "mirror"]] := by
    decide +kernel
  rw [hkept, List.mem_singleton] at hpath
  subst hpath
  exact spellsState_of_canonical (by decide +kernel) (by decide +kernel) (by decide +kernel)

open StateExamples in
/-- Asked for a directory above the root by way of a link, a backup holds the passphrase. -/
theorem state_archived_through_link : ∃ tree,
    createSnapshot machine "/data/home/mirror" (requestOf ["/link/home"]) = some tree ∧
      (∀ path ∈ (requestOf ["/link/home"]).paths, ∃ place, machine.fs.canonicalize path = some place ∧
        ¬ stateDir <+: place) ∧
      ¬ LeavesStateOut machine "/data/home/mirror" tree := by
  obtain ⟨tree, htree⟩ := Option.isSome_iff_exists.mp (show
    (createSnapshot machine "/data/home/mirror" (requestOf ["/link/home"])).isSome = true by
      decide +kernel)
  refine ⟨tree, htree, ?_, fun h => ?_⟩
  · intro path hpath
    obtain rfl := List.mem_singleton.mp hpath
    exact ⟨["data", "home"], by decide +kernel, by decide +kernel⟩
  · have hheld : ((createSnapshot machine "/data/home/mirror" (requestOf ["/link/home"])).map
        fun tree => decide (Content.read ["link", "home", "mirror", ".mirror", "passphrase"] ∈
          contentsAll tree)) = some true := by decide +kernel
    rw [htree, Option.map_some, Option.some.injEq, decide_eq_true_eq] at hheld
    exact h ["data", "home", "mirror"] stateDir _ (stateDir ++ ["passphrase"]) (by decide +kernel)
      (by decide +kernel) hheld (by decide +kernel) (List.prefix_append _ _)

end FileMirror
