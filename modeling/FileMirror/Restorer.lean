import FileMirror.LocalPaths
import FileMirror.Prune
import FileMirror.TreeFormat
import Mathlib.Data.List.DropRight

set_option autoImplicit false

/-!
# Planning a restore

`restorer.rs`: what of a snapshot is restored is collected by a walk through its trees, the directories
that lead to nothing are dropped, and the chunks of a pack are read in ranges that hold several of
them. Globs are a parameter, and so is the plaintext of a blob.
-/

namespace FileMirror.Restorer

open SortedLookup TreeFormat

/-- `GlobBuilder` and `GlobSetBuilder`: what is the matter with a pattern, and the set of many. -/
structure Globs where
  glob : String → Option String
  globSet : List String → Except String (String → Bool)

structure PathMatcher where
  globs : String → Bool
  literals : List String

def trimSlashes (pattern : String) : String :=
  String.ofList ((pattern.toList.dropWhile (· = '/')).rdropWhile (· = '/'))

def PathMatcher.new (globs : Globs) (debug : String → String) (patterns : List String) :
    Except BackupError PathMatcher :=
  let literals := patterns.map trimSlashes
  match literals.findSome? fun pattern => (globs.glob pattern).map (pattern, ·) with
  | some (pattern, e) => .error (.invalid s!"pattern {debug pattern}: {e}")
  | none =>
      match globs.globSet literals with
      | .error e => .error (.invalid s!"patterns: {e}")
      | .ok isMatch => .ok ⟨isMatch, literals⟩

def PathMatcher.isEmpty (m : PathMatcher) : Bool := m.literals.isEmpty

def PathMatcher.«matches» (m : PathMatcher) (path : String) : Bool :=
  let name := (rsplitOnce '/' path.toList).elim path fun cut => String.ofList cut.2
  m.globs path || m.globs name ||
    m.literals.any fun l => path = l || (l.toList ++ ['/']).isPrefixOf path.toList

/-- The flag of a directory says whether it was selected itself. -/
structure Plan where
  dirs : List (String × TreeFormat.Node × Bool)
  symlinks : List (String × TreeFormat.Node)
  files : List (String × TreeFormat.Node)

structure Repository where
  plaintext : ObjectId → Except BackupError (List UInt8)
  serde : TreeSerde

def Repository.loadTree (repo : Repository) (id : ObjectId) : Except BackupError Tree :=
  match repo.plaintext id with
  | .error e => .error e
  | .ok data => Tree.decode repo.serde data

def childPath (parent name : String) : String := if parent = "" then name else s!"{parent}/{name}"

section Walk

variable (includes excludes : PathMatcher)

/-- The loop over the entries of a directory, `descend` being the walk beneath one of them. A
directory without a subtree is a panic. -/
def planNodes (descend : ObjectId → String → Bool → Plan → Option (Except BackupError Plan))
    (dir : String) (included : Bool) :
    List TreeFormat.Node → Plan → Option (Except BackupError Plan)
  | [], plan => some (.ok plan)
  | node :: rest, plan =>
      let rel := childPath dir node.name
      if excludes.«matches» rel then planNodes descend dir included rest plan
      else
        let selected := included || includes.«matches» rel
        match node.nodeType with
        | .dir =>
            match node.subtree with
            | none => none
            | some subtree =>
                match descend subtree rel selected
                  { plan with dirs := plan.dirs ++ [(rel, node, selected)] } with
                | some (.ok plan) => planNodes descend dir included rest plan
                | other => other
        | .symlink =>
            planNodes descend dir included rest
              (if selected then { plan with symlinks := plan.symlinks ++ [(rel, node)] } else plan)
        | .file =>
            planNodes descend dir included rest
              (if selected then { plan with files := plan.files ++ [(rel, node)] } else plan)

def planTree (repo : Repository) : ℕ → ObjectId → String → Bool → Plan →
    Option (Except BackupError Plan)
  | 0, _, _, _, _ => none
  | fuel + 1, id, dir, included, plan =>
      match repo.loadTree id with
      | .error e => some (.error e)
      | .ok tree =>
          planNodes includes excludes (planTree repo fuel) dir included tree.nodes plan

end Walk

theorem rsplitOnce_length {mark : Char} {text front back : List Char}
    (h : rsplitOnce mark text = some (front, back)) : front.length < text.length := by
  unfold rsplitOnce at h
  split_ifs at h with hmem
  cases h
  have hpos := List.length_pos_of_mem hmem
  rw [List.length_take]
  omega

def parentsOf (path : List Char) : List (List Char) :=
  match _hcut : rsplitOnce '/' path with
  | none => []
  | some (parent, _) => parent :: parentsOf parent
termination_by path.length
decreasing_by exact rsplitOnce_length _hcut

def pruneDirs (plan : Plan) : Plan :=
  let selectedDirs := (plan.dirs.filter fun dir => dir.2.2).map Prod.fst
  let needed := ((plan.files ++ plan.symlinks).map Prod.fst ++ selectedDirs).flatMap fun rel =>
    parentsOf rel.toList
  { plan with dirs := plan.dirs.filter fun dir => dir.2.2 || decide (dir.1.toList ∈ needed) }

/-- What `restore` does before it touches the disk. -/
def planRestore (globs : Globs) (repo : Repository) (fuel : ℕ) (tree : ObjectId)
    (includes excludes : List String) : Option (Except BackupError Plan) :=
  match PathMatcher.new globs repo.serde.debug includes,
    PathMatcher.new globs repo.serde.debug excludes with
  | .error e, _ => some (.error e)
  | .ok _, .error e => some (.error e)
  | .ok includes, .ok excludes =>
      (planTree includes excludes repo fuel tree "" includes.isEmpty ⟨[], [], []⟩).map
        fun result => result.map pruneDirs

def mergeGap : ℕ := 65536

structure BlobRead where
  entry : Entry
  destinations : List (ℕ × ℕ)

/-- `end` is that of the last group. -/
def groupRead (groups : List (List BlobRead) × ℕ) (read : BlobRead) : List (List BlobRead) × ℕ :=
  match groups.1.getLast? with
  | none => ([[read]], read.entry.end)
  | some group =>
      if read.entry.offset ≤ groups.2 + mergeGap then
        (groups.1.dropLast ++ [group ++ [read]], max groups.2 read.entry.end)
      else (groups.1 ++ [[read]], read.entry.end)

def groupReads (reads : List BlobRead) : List (List BlobRead) := (reads.foldl groupRead ([], 0)).1

/-- The groups in which `read_pack` reads the blobs of a pack. -/
def packReads (blobs : List BlobRead) : List (List BlobRead) :=
  groupReads (sortByKey (fun read => read.entry.offset) blobs)

def groupRange (group : List BlobRead) : ℕ × ℕ :=
  (group.head?.elim 0 fun read => read.entry.offset,
    (group.map fun read => read.entry.end).foldl max 0)

/-- `get_range` of an object that is long enough. -/
def getRange (pack : List UInt8) (start length : ℕ) : List UInt8 := (pack.drop start).take length

/-- The sealed blob in what was read for its group; `none` is a panic. -/
def sliceOf (data : List UInt8) (start : ℕ) (e : Entry) : Option (List UInt8) :=
  if e.offset < start then none
  else if data.length < e.offset - start + e.length then none
  else some ((data.drop (e.offset - start)).take e.length)

inductive EntryIn (repo : Repository) : List TreeFormat.Node → List String → TreeFormat.Node → Prop
  | here {nodes : List TreeFormat.Node} {n : TreeFormat.Node} (hn : n ∈ nodes) :
      EntryIn repo nodes [n.name] n
  | inside {nodes : List TreeFormat.Node} {d n : TreeFormat.Node} {id : ObjectId} {tree : Tree}
      {trail : List String} (hd : d ∈ nodes) (hdir : d.nodeType = .dir)
      (hid : d.subtree = some id) (htree : repo.loadTree id = .ok tree)
      (h : EntryIn repo tree.nodes trail n) : EntryIn repo nodes (d.name :: trail) n

inductive Beneath (repo : Repository) : ObjectId → ObjectId → Prop
  | self {id : ObjectId} : Beneath repo id id
  | step {id below subtree : ObjectId} {tree : Tree} {n : TreeFormat.Node}
      (htree : repo.loadTree id = .ok tree) (hn : n ∈ tree.nodes) (hdir : n.nodeType = .dir)
      (hid : n.subtree = some subtree) (h : Beneath repo subtree below) : Beneath repo id below

inductive Ends (repo : Repository) : ObjectId → Prop
  | mk {id : ObjectId} (h : ∀ tree, repo.loadTree id = .ok tree → ∀ n ∈ tree.nodes,
      n.nodeType = .dir → ∀ subtree, n.subtree = some subtree → Ends repo subtree) : Ends repo id

/-- What the walk makes of an entry that is not excluded: its path, and whether it is selected. -/
structure Visit where
  rel : String
  node : TreeFormat.Node
  selected : Bool

section Visits

variable (includes excludes : PathMatcher) (repo : Repository)

inductive Visits : List TreeFormat.Node → String → Bool → List Visit → Prop
  | nil {dir : String} {included : Bool} : Visits [] dir included []
  | excluded {node : TreeFormat.Node} {rest : List TreeFormat.Node} {dir : String}
      {included : Bool} {vs : List Visit}
      (hmatch : excludes.«matches» (childPath dir node.name) = true)
      (h : Visits rest dir included vs) : Visits (node :: rest) dir included vs
  | leaf {node : TreeFormat.Node} {rest : List TreeFormat.Node} {dir : String} {included : Bool}
      {vs : List Visit} (hmatch : excludes.«matches» (childPath dir node.name) = false)
      (htype : node.nodeType ≠ .dir) (h : Visits rest dir included vs) :
      Visits (node :: rest) dir included
        (⟨childPath dir node.name, node,
          included || includes.«matches» (childPath dir node.name)⟩ :: vs)
  | dir {node : TreeFormat.Node} {rest : List TreeFormat.Node} {dir : String} {included : Bool}
      {id : ObjectId} {tree : Tree} {vs ws : List Visit}
      (hmatch : excludes.«matches» (childPath dir node.name) = false)
      (htype : node.nodeType = .dir) (hid : node.subtree = some id)
      (htree : repo.loadTree id = .ok tree)
      (hbelow : Visits tree.nodes (childPath dir node.name)
        (included || includes.«matches» (childPath dir node.name)) ws)
      (h : Visits rest dir included vs) :
      Visits (node :: rest) dir included
        (⟨childPath dir node.name, node,
          included || includes.«matches» (childPath dir node.name)⟩ :: (ws ++ vs))

end Visits

def Plan.extend (plan : Plan) (vs : List Visit) : Plan where
  dirs := plan.dirs ++ (vs.filter fun v => v.node.nodeType = .dir).map fun v =>
    (v.rel, v.node, v.selected)
  symlinks := plan.symlinks ++ (vs.filter fun v => v.node.nodeType = .symlink && v.selected).map
    fun v => (v.rel, v.node)
  files := plan.files ++ (vs.filter fun v => v.node.nodeType = .file && v.selected).map
    fun v => (v.rel, v.node)

section Planning

variable {includes excludes : PathMatcher} {repo : Repository} {nodes : List TreeFormat.Node}
  {dir : String} {included : Bool} {vs ws : List Visit} {plan plan' : Plan} {fuel : ℕ}
  {id : ObjectId} {trail : List String} {n : TreeFormat.Node} {tree : Tree}

theorem extend_append : plan.extend (vs ++ ws) = (plan.extend vs).extend ws := by
  simp only [Plan.extend, List.filter_append, List.map_append, List.append_assoc]

theorem extend_cons {v : Visit} : plan.extend (v :: vs) = (plan.extend [v]).extend vs := by
  change plan.extend ([v] ++ vs) = _
  exact extend_append

theorem extend_nil : plan.extend [] = plan := by
  simp only [Plan.extend, List.filter_nil, List.map_nil, List.append_nil]

theorem planNodes_visits {descend : ObjectId → String → Bool → Plan → Option (Except BackupError Plan)}
    (hdescend : ∀ id rel selected plan plan', descend id rel selected plan = some (.ok plan') →
      ∃ tree ws, repo.loadTree id = .ok tree ∧
        Visits includes excludes repo tree.nodes rel selected ws ∧ plan' = plan.extend ws)
    (h : planNodes includes excludes descend dir included nodes plan = some (.ok plan')) :
    ∃ vs, Visits includes excludes repo nodes dir included vs ∧ plan' = plan.extend vs := by
  induction nodes generalizing plan with
  | nil =>
      cases h
      exact ⟨[], .nil, extend_nil.symm⟩
  | cons node rest ih =>
      rw [planNodes] at h
      dsimp only at h
      cases hmatch : excludes.«matches» (childPath dir node.name) with
      | true =>
          rw [if_pos hmatch] at h
          obtain ⟨vs, hvs, rfl⟩ := ih h
          exact ⟨vs, .excluded hmatch hvs, rfl⟩
      | false =>
          rw [if_neg (by rw [hmatch]; exact Bool.false_ne_true)] at h
          generalize hselected : (included || includes.«matches» (childPath dir node.name)) =
            selected at h
          cases htype : node.nodeType with
          | dir =>
              simp only [htype] at h
              cases hid : node.subtree with
              | none => simp only [hid, reduceCtorEq] at h
              | some id =>
                  simp only [hid] at h
                  split at h
                  · next between hbetween =>
                      obtain ⟨tree, ws, htree, hws, rfl⟩ := hdescend _ _ _ _ _ hbetween
                      obtain ⟨vs, hvs, rfl⟩ := ih h
                      refine ⟨_, .dir hmatch htype hid htree (hselected ▸ hws) hvs, ?_⟩
                      rw [extend_cons, extend_append]
                      simp [Plan.extend, htype, hselected]
                  · next other hother => exact absurd h (hother _)
          | symlink =>
              simp only [htype] at h
              obtain ⟨vs, hvs, rfl⟩ := ih h
              refine ⟨_, .leaf hmatch (by rw [htype]; nofun) hvs, ?_⟩
              rw [extend_cons]
              cases selected <;> simp [Plan.extend, htype, hselected]
          | file =>
              simp only [htype] at h
              obtain ⟨vs, hvs, rfl⟩ := ih h
              refine ⟨_, .leaf hmatch (by rw [htype]; nofun) hvs, ?_⟩
              rw [extend_cons]
              cases selected <;> simp [Plan.extend, htype, hselected]

theorem planTree_visits (h : planTree includes excludes repo fuel id dir included plan =
    some (.ok plan')) :
    ∃ tree vs, repo.loadTree id = .ok tree ∧
      Visits includes excludes repo tree.nodes dir included vs ∧ plan' = plan.extend vs := by
  induction fuel generalizing id dir included plan plan' with
  | zero => cases h
  | succ fuel ih =>
      rw [planTree] at h
      cases htree : repo.loadTree id with
      | error e => simp only [htree, Option.some.injEq, reduceCtorEq] at h
      | ok tree =>
          simp only [htree] at h
          obtain ⟨vs, hvs, hplan⟩ := planNodes_visits (fun _ _ _ _ _ hsome => ih hsome) h
          exact ⟨tree, vs, rfl, hvs, hplan⟩

theorem planTree_error {e : BackupError}
    (h : planTree includes excludes repo fuel id dir included plan = some (.error e)) :
    ∃ below, Beneath repo id below ∧ repo.loadTree below = .error e := by
  induction fuel generalizing id dir included plan with
  | zero => cases h
  | succ fuel ih =>
      rw [planTree] at h
      cases htree : repo.loadTree id with
      | error e' =>
          simp only [htree, Option.some.injEq, Except.error.injEq] at h
          exact ⟨id, .self, h ▸ htree⟩
      | ok tree =>
          simp only [htree] at h
          suffices hnodes : ∀ nodes plan, nodes ⊆ tree.nodes →
              planNodes includes excludes (planTree includes excludes repo fuel) dir included nodes
                plan = some (.error e) →
              ∃ n ∈ tree.nodes, n.nodeType = .dir ∧ ∃ subtree, n.subtree = some subtree ∧
                ∃ below, Beneath repo subtree below ∧ repo.loadTree below = .error e by
            obtain ⟨n, hn, hdir, subtree, hid, below, hbelow, herror⟩ :=
              hnodes _ _ (List.Subset.refl _) h
            exact ⟨below, .step htree hn hdir hid hbelow, herror⟩
          clear h
          intro nodes
          induction nodes with
          | nil => nofun
          | cons node rest ihrest =>
              intro plan hsub h
              have hrest := fun plan => ihrest plan fun n hn => hsub (List.mem_cons_of_mem _ hn)
              rw [planNodes] at h
              dsimp only at h
              split at h
              · exact hrest plan h
              · split at h
                · next hdir =>
                    split at h
                    · cases h
                    · next subtree hid =>
                        split at h
                        · exact hrest _ h
                        · obtain ⟨below, hbelow, herror⟩ := ih h
                          exact ⟨node, hsub List.mem_cons_self, hdir, subtree, hid, below, hbelow,
                            herror⟩
                · exact hrest _ h
                · exact hrest _ h

theorem planNodes_mono {descend deeper : ObjectId → String → Bool → Plan → Option (Except BackupError Plan)}
    (hdescend : ∀ id rel selected plan r, descend id rel selected plan = some r →
      deeper id rel selected plan = some r) {r : Except BackupError Plan}
    (h : planNodes includes excludes descend dir included nodes plan = some r) :
    planNodes includes excludes deeper dir included nodes plan = some r := by
  induction nodes generalizing plan with
  | nil => exact h
  | cons node rest ih =>
      rw [planNodes] at h ⊢
      dsimp only at h ⊢
      split at h
      · next hmatch =>
          rw [if_pos hmatch]
          exact ih h
      · next hmatch =>
          rw [if_neg hmatch]
          cases htype : node.nodeType with
          | dir =>
              simp only [htype] at h ⊢
              cases hid : node.subtree with
              | none => simp only [hid, reduceCtorEq] at h
              | some id =>
                  simp only [hid] at h ⊢
                  generalize hbelow : descend id _ _ _ = below at h
                  cases below with
                  | none => cases h
                  | some below =>
                      rw [hdescend _ _ _ _ _ hbelow]
                      cases below with
                      | error e => exact h
                      | ok plan => exact ih h
          | symlink =>
              simp only [htype] at h ⊢
              exact ih h
          | file =>
              simp only [htype] at h ⊢
              exact ih h

theorem planTree_mono {more : ℕ} (hle : fuel ≤ more) {r : Except BackupError Plan}
    (h : planTree includes excludes repo fuel id dir included plan = some r) :
    planTree includes excludes repo more id dir included plan = some r := by
  induction fuel generalizing more id dir included plan r with
  | zero => cases h
  | succ fuel ih =>
      obtain ⟨more, rfl⟩ : ∃ m, more = m + 1 := ⟨more - 1, by omega⟩
      rw [planTree] at h ⊢
      cases htree : repo.loadTree id with
      | error e =>
          simp only [htree] at h ⊢
          exact h
      | ok tree =>
          simp only [htree] at h ⊢
          exact planNodes_mono (fun _ _ _ _ _ hsome => ih (by omega) hsome) h

theorem planNodes_ends {descend : ObjectId → String → Bool → Plan → Option (Except BackupError Plan)}
    (hvalid : ∀ n ∈ nodes, n.Valid)
    (hdescend : ∀ n ∈ nodes, n.nodeType = .dir → ∀ subtree, n.subtree = some subtree →
      ∀ rel selected plan, ∃ r, descend subtree rel selected plan = some r) :
    ∃ r, planNodes includes excludes descend dir included nodes plan = some r := by
  induction nodes generalizing plan with
  | nil => exact ⟨_, rfl⟩
  | cons node rest ih =>
      obtain ⟨hnode, hrest⟩ := List.forall_mem_cons.mp hvalid
      obtain ⟨hbelow, hothers⟩ := List.forall_mem_cons.mp hdescend
      rw [planNodes]
      dsimp only
      by_cases hmatch : excludes.«matches» (childPath dir node.name) = true
      · rw [if_pos hmatch]
        exact ih hrest hothers
      · rw [if_neg hmatch]
        cases htype : node.nodeType with
        | dir =>
            obtain ⟨subtree, hid⟩ := Option.isSome_iff_exists.mp (hnode.dir htype)
            obtain ⟨r, hr⟩ := hbelow htype subtree hid (childPath dir node.name)
              (included || includes.«matches» (childPath dir node.name))
              { plan with dirs := plan.dirs ++ [(childPath dir node.name, node,
                included || includes.«matches» (childPath dir node.name))] }
            simp only [hid, hr]
            cases r with
            | error e => exact ⟨_, rfl⟩
            | ok plan => exact ih hrest hothers
        | symlink => exact ih hrest hothers
        | file => exact ih hrest hothers

theorem loadTree_canonical (h : repo.loadTree id = .ok tree) : tree.Canonical := by
  unfold Repository.loadTree at h
  split at h
  · cases h
  · exact (decode_eq_ok.mp h).2

theorem planTree_ends (h : Ends repo id) : ∃ fuel, ∀ dir included plan,
    ∃ r, planTree includes excludes repo fuel id dir included plan = some r := by
  induction h with
  | @mk id hbelow ih =>
      cases htree : repo.loadTree id with
      | error e =>
          refine ⟨1, fun dir included plan => ⟨.error e, ?_⟩⟩
          simp only [planTree, htree]
      | ok tree =>
          have hfuel : ∀ nodes : List TreeFormat.Node, nodes ⊆ tree.nodes → ∃ fuel, ∀ n ∈ nodes,
              n.nodeType = .dir → ∀ subtree, n.subtree = some subtree → ∀ dir included plan,
                ∃ r, planTree includes excludes repo fuel subtree dir included plan = some r := by
            intro nodes hsub
            induction nodes with
            | nil => exact ⟨0, nofun⟩
            | cons node rest ihrest =>
                obtain ⟨restFuel, hrest⟩ := ihrest fun n hn => hsub (List.mem_cons_of_mem _ hn)
                obtain ⟨nodeFuel, hnode⟩ : ∃ fuel, node.nodeType = .dir → ∀ subtree,
                    node.subtree = some subtree → ∀ dir included plan,
                      ∃ r, planTree includes excludes repo fuel subtree dir included plan =
                        some r := by
                  by_cases hdir : node.nodeType = .dir
                  · cases hid : node.subtree with
                    | none => exact ⟨0, nofun⟩
                    | some subtree =>
                        obtain ⟨fuel, hends⟩ := ih tree htree node (hsub List.mem_cons_self) hdir
                          subtree hid
                        refine ⟨fuel, fun _ other hother => ?_⟩
                        cases hother
                        exact hends
                  · exact ⟨0, fun h => absurd h hdir⟩
                refine ⟨max restFuel nodeFuel, List.forall_mem_cons.mpr ⟨?_, ?_⟩⟩
                · intro hdir subtree hid dir included plan
                  obtain ⟨r, hr⟩ := hnode hdir subtree hid dir included plan
                  exact ⟨r, planTree_mono (le_max_right _ _) hr⟩
                · intro n hn hdir subtree hid dir included plan
                  obtain ⟨r, hr⟩ := hrest n hn hdir subtree hid dir included plan
                  exact ⟨r, planTree_mono (le_max_left _ _) hr⟩
          obtain ⟨fuel, hends⟩ := hfuel tree.nodes (List.Subset.refl _)
          refine ⟨fuel + 1, fun dir included plan => ?_⟩
          simp only [planTree, htree]
          exact planNodes_ends (loadTree_canonical htree).valid hends

end Planning

end FileMirror.Restorer
