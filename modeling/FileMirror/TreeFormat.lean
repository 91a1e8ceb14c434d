import FileMirror.FileArchive
import FileMirror.Packs
import FileMirror.SortedLookup
import Mathlib.Data.String.Basic

set_option autoImplicit false

/-!
# The format of trees

`Tree` of `snapshot.rs`: a directory's children are stored in the order of their names, checked when
they are read, and looked up by bisection. `serde_json` and the escapes of `{:?}` are parameters.
-/

namespace FileMirror.TreeFormat

open SortedLookup

structure Node where
  name : String
  nodeType : NodeType
  mode : ℕ
  uid : ℕ
  gid : ℕ
  size : ℕ
  mtime : ℤ
  ctime : Option ℤ
  linkTarget : Option String
  content : List ObjectId
  subtree : Option ObjectId
  device : ℕ
  inode : ℕ
  links : ℕ
  contentHash : Option String
  offloaded : Bool
  deriving DecidableEq

structure Tree where
  nodes : List Node
  deriving DecidableEq

structure TreeSerde where
  toVec : Tree → List UInt8
  fromSlice : List UInt8 → Except String Tree
  debug : String → String

def Tree.new (nodes : List Node) : Tree := ⟨sortByKey Node.name nodes⟩

def Tree.find (tree : Tree) (name : String) : Option Node :=
  match binarySearchBy (fun n => compare n.name name) tree.nodes with
  | .ok i => tree.nodes[i]?
  | .error _ => none

def Tree.encode (serde : TreeSerde) (tree : Tree) : List UInt8 := serde.toVec (.new tree.nodes)

def invalidName (name : String) : Bool :=
  name = "" || name = "." || name = ".." || '/' ∈ name.toList || '\x00' ∈ name.toList

/-- The checks of one entry, `before` being the entry in front of it. -/
def checkNode (serde : TreeSerde) (i : ℕ) (before : Option Node) (node : Node) :
    Except BackupError Unit :=
  if invalidName node.name then
    .error (.format s!"tree: entry {i} has invalid name {serde.debug node.name}")
  else if before.any fun b => decide (node.name ≤ b.name) then
    .error (.format s!"tree: entry {serde.debug node.name} is out of order or duplicated")
  else if node.nodeType = .dir ∧ node.subtree = none then
    .error (.format s!"tree: directory {serde.debug node.name} has no subtree")
  else if node.nodeType = .symlink ∧ node.linkTarget = none then
    .error (.format s!"tree: symlink {serde.debug node.name} has no target")
  else .ok ()

def checkNodes (serde : TreeSerde) : ℕ → Option Node → List Node → Except BackupError Unit
  | _, _, [] => .ok ()
  | i, before, node :: rest =>
      match checkNode serde i before node with
      | .error e => .error e
      | .ok () => checkNodes serde (i + 1) (some node) rest

def Tree.decode (serde : TreeSerde) (data : List UInt8) : Except BackupError Tree :=
  match serde.fromSlice data with
  | .error e => .error (.format s!"tree: {e}")
  | .ok tree =>
      match checkNodes serde 0 none tree.nodes with
      | .error e => .error e
      | .ok () => .ok tree

/-- Its name can be one in a directory, and it has what its type needs. -/
structure Node.Valid (n : Node) : Prop where
  nonempty : n.name ≠ ""
  dot : n.name ≠ "."
  dotDot : n.name ≠ ".."
  slash : '/' ∉ n.name.toList
  nul : '\x00' ∉ n.name.toList
  dir : n.nodeType = .dir → n.subtree.isSome
  symlink : n.nodeType = .symlink → n.linkTarget.isSome

structure Tree.Canonical (tree : Tree) : Prop where
  increasing : tree.nodes.Pairwise fun a b => a.name < b.name
  valid : ∀ n ∈ tree.nodes, n.Valid

def TreeSerde.RoundTrips (serde : TreeSerde) (tree : Tree) : Prop :=
  serde.fromSlice (serde.toVec tree) = .ok tree

variable {serde : TreeSerde} {nodes others : List Node} {node : Node} {before : Option Node}
  {tree : Tree} {data : List UInt8} {name : String} {i : ℕ}

theorem invalidName_eq_false : invalidName name = false ↔
    name ≠ "" ∧ name ≠ "." ∧ name ≠ ".." ∧ '/' ∉ name.toList ∧ '\x00' ∉ name.toList := by
  simp only [invalidName, Bool.or_eq_false_iff, decide_eq_false_iff_not, ne_eq, and_assoc]

theorem Node.valid_iff : node.Valid ↔ invalidName node.name = false ∧
    ¬ (node.nodeType = .dir ∧ node.subtree = none) ∧
      ¬ (node.nodeType = .symlink ∧ node.linkTarget = none) := by
  rw [invalidName_eq_false]
  constructor
  · intro h
    refine ⟨⟨h.nonempty, h.dot, h.dotDot, h.slash, h.nul⟩, fun hdir => ?_, fun hlink => ?_⟩
    · have hsome := h.dir hdir.1
      rw [hdir.2] at hsome
      cases hsome
    · have hsome := h.symlink hlink.1
      rw [hlink.2] at hsome
      cases hsome
  · rintro ⟨⟨hempty, hdot, hdots, hslash, hnul⟩, hdir, hlink⟩
    refine ⟨hempty, hdot, hdots, hslash, hnul, fun htype => ?_, fun htype => ?_⟩
    · exact Option.isSome_iff_ne_none.mpr fun hnone => hdir ⟨htype, hnone⟩
    · exact Option.isSome_iff_ne_none.mpr fun hnone => hlink ⟨htype, hnone⟩

theorem checkNode_eq_ok : checkNode serde i before node = .ok () ↔
    node.Valid ∧ ∀ b ∈ before, b.name < node.name := by
  have hbefore : (before.any fun b => decide (node.name ≤ b.name)) = false ↔
      ∀ b ∈ before, b.name < node.name := by
    cases before with
    | none => simp only [Option.any_none, Option.mem_def, reduceCtorEq, false_implies, implies_true]
    | some b =>
        rw [Option.any_some, decide_eq_false_iff_not, not_le]
        simp only [Option.mem_some, forall_eq']
  rw [Node.valid_iff, ← hbefore]
  unfold checkNode
  cases invalidName node.name with
  | true => simp
  | false =>
      rw [if_neg Bool.false_ne_true]
      cases before.any fun b => decide (node.name ≤ b.name) with
      | true => simp
      | false =>
          rw [if_neg Bool.false_ne_true]
          split_ifs with hdir hlink
          · exact iff_of_false nofun fun h => h.1.2.1 hdir
          · exact iff_of_false nofun fun h => h.1.2.2 hlink
          · exact iff_of_true rfl ⟨⟨rfl, hdir, hlink⟩, rfl⟩

theorem checkNodes_eq_ok : checkNodes serde i before nodes = .ok () ↔
    (∀ n ∈ nodes, n.Valid) ∧
      (before.toList ++ nodes).IsChain fun a b => a.name < b.name := by
  induction nodes generalizing i before with
  | nil => cases before <;> simp [checkNodes]
  | cons node nodes ih =>
      have hrest : checkNodes serde i before (node :: nodes) = .ok () ↔
          checkNode serde i before node = .ok () ∧
            checkNodes serde (i + 1) (some node) nodes = .ok () := by
        rw [checkNodes]
        cases checkNode serde i before node with
        | error e => simp
        | ok _ => simp
      rw [hrest, ih, checkNode_eq_ok, List.forall_mem_cons]
      cases before with
      | none => simp [and_assoc]
      | some b =>
          simp only [Option.mem_some, forall_eq', Option.toList_some, List.cons_append,
            List.nil_append, List.isChain_cons_cons]
          tauto

theorem decode_eq_ok : Tree.decode serde data = .ok tree ↔
    serde.fromSlice data = .ok tree ∧ tree.Canonical := by
  unfold Tree.decode
  cases hparsed : serde.fromSlice data with
  | error e => exact iff_of_false nofun fun h => by cases h.1
  | ok parsed =>
      have hcanonical : checkNodes serde 0 none parsed.nodes = .ok () ↔ parsed.Canonical := by
        rw [checkNodes_eq_ok, Option.toList_none, List.nil_append, List.isChain_iff_pairwise]
        exact ⟨fun h => ⟨h.2, h.1⟩, fun h => ⟨h.2, h.1⟩⟩
      dsimp only
      cases hchecked : checkNodes serde 0 none parsed.nodes with
      | error e =>
          refine iff_of_false nofun ?_
          rintro ⟨hsame, h⟩
          cases hsame
          rw [hcanonical.mpr h] at hchecked
          cases hchecked
      | ok _ =>
          rw [Except.ok.injEq]
          refine ⟨?_, fun h => Except.ok.inj h.1⟩
          rintro rfl
          exact ⟨rfl, hcanonical.mp hchecked⟩

theorem canonical_new (hvalid : ∀ n ∈ nodes, n.Valid) (hnames : (nodes.map Node.name).Nodup) :
    (Tree.new nodes).Canonical where
  increasing := sortByKey_increasing hnames
  valid := fun n hn => hvalid n (mem_sortByKey.mp hn)

theorem Tree.Canonical.ascending (h : tree.Canonical) (name : String) :
    Ascending (fun n => compare n.name name) tree.nodes := by
  refine h.increasing.imp fun {a b} hlt => ?_
  by_cases hb : name < b.name
  · exact .inl (compare_gt_iff_gt.mpr hb)
  · exact .inr (compare_lt_iff_lt.mpr (lt_of_lt_of_le hlt (not_lt.mp hb)))

theorem Tree.Canonical.find_eq_some (h : tree.Canonical) {n : Node} :
    tree.find name = some n ↔ n ∈ tree.nodes ∧ n.name = name := by
  have hfound := fun i => binarySearchBy_eq_ok (i := i) (h.ascending name)
  simp only [compare_eq_iff_eq] at hfound
  unfold Tree.find
  constructor
  · intro hfind
    cases hsearch : binarySearchBy (fun n => compare n.name name) tree.nodes with
    | error e => simp only [hsearch, reduceCtorEq] at hfind
    | ok i =>
        simp only [hsearch] at hfind
        obtain ⟨m, hm, hname⟩ := (hfound i).mp hsearch
        obtain rfl := Option.some.inj (hm.symm.trans hfind)
        exact ⟨List.mem_of_getElem? hm, hname⟩
  · rintro ⟨hmem, hname⟩
    obtain ⟨i, hi⟩ := List.getElem?_of_mem hmem
    simp only [(hfound i).mpr ⟨n, hi, hname⟩, hi]

/-- Every order of the nodes is encoded alike and decoded sorted, and what is decoded is canonical
and found by its names. -/
theorem tree_canonical_form (serde : TreeSerde) :
    (∀ nodes : List Node, (∀ n ∈ nodes, n.Valid) → (nodes.map Node.name).Nodup →
      (∀ others, others.Perm nodes → Tree.encode serde ⟨others⟩ = Tree.encode serde ⟨nodes⟩) ∧
      (serde.RoundTrips (.new nodes) →
        ∃ sorted, sorted.Perm nodes ∧ sorted.Pairwise (fun a b => a.name < b.name) ∧
          Tree.decode serde (Tree.encode serde ⟨nodes⟩) = .ok ⟨sorted⟩)) ∧
    ∀ data tree, Tree.decode serde data = .ok tree →
      tree.nodes.Pairwise (fun a b => a.name < b.name) ∧ (∀ n ∈ tree.nodes, n.Valid) ∧
        ∀ name n, tree.find name = some n ↔ n ∈ tree.nodes ∧ n.name = name := by
  constructor
  · intro nodes hvalid hnames
    have hcanonical := canonical_new hvalid hnames
    refine ⟨fun others hperm => ?_, fun hserde => ?_⟩
    · have hsame : sortByKey Node.name nodes = sortByKey Node.name others :=
        sortByKey_congr hnames hperm.symm
      simp only [Tree.encode, Tree.new, hsame]
    · have hdecoded := decode_eq_ok.mpr ⟨hserde, hcanonical⟩
      exact ⟨(Tree.new nodes).nodes, sortByKey_perm, hcanonical.increasing, hdecoded⟩
  · intro data tree hdecoded
    obtain ⟨_, hcanonical⟩ := decode_eq_ok.mp hdecoded
    exact ⟨hcanonical.increasing, hcanonical.valid, fun name n => hcanonical.find_eq_some⟩

def linkAndFile : List Node :=
  let file : Node :=
    { name := "b", nodeType := .file, mode := 420, uid := 0, gid := 0, size := 0, mtime := 0,
      ctime := none, linkTarget := none, content := [], subtree := none, device := 0, inode := 0,
      links := 0, contentHash := none, offloaded := false }
  [file, { file with name := "a", nodeType := .symlink, mode := 511, linkTarget := some "b" }]

/-- What `serde_json` makes of the two. -/
def linkAndFileJson : List UInt8 :=
  ("\x7b\"nodes\":[\x7b\"name\":\"a\",\"type\":\"symlink\",\"mode\":511,\"uid\":0,\"gid\":0," ++
    "\"mtime\":\"1970-01-01T00:00:00Z\",\"link_target\":\"b\"\x7d,\x7b\"name\":\"b\",\"type\":\"file\"," ++
    "\"mode\":420,\"uid\":0,\"gid\":0,\"mtime\":\"1970-01-01T00:00:00Z\"\x7d]\x7d").toUTF8.toList

def linkAndFileSerde : TreeSerde where
  toVec := fun tree => if tree = .new linkAndFile then linkAndFileJson else []
  fromSlice := fun data =>
    if data = linkAndFileJson then .ok (.new linkAndFile)
    else .error "EOF while parsing a value at line 1 column 0"
  debug := fun name => s!"\"{name}\""

theorem linkAndFile_valid : ∀ n ∈ linkAndFile, n.Valid := by
  intro n hn
  rw [Node.valid_iff]
  revert n
  decide

theorem linkAndFile_canonical : (Tree.new linkAndFile).Canonical :=
  canonical_new linkAndFile_valid (by decide)

theorem linkAndFile_read : linkAndFileSerde.fromSlice linkAndFileJson = .ok (.new linkAndFile) := by
  dsimp only [linkAndFileSerde]
  rw [if_pos rfl]

theorem tree_canonical_form_two : ∃ sorted : List Node, sorted.Perm linkAndFile ∧
    sorted.Pairwise (fun a b => a.name < b.name) ∧
      Tree.decode linkAndFileSerde (Tree.encode linkAndFileSerde ⟨linkAndFile⟩) = .ok ⟨sorted⟩ := by
  have hserde : linkAndFileSerde.RoundTrips (.new linkAndFile) := by
    have hjson : linkAndFileSerde.toVec (.new linkAndFile) = linkAndFileJson := by
      dsimp only [linkAndFileSerde]
      rw [if_pos rfl]
    rw [TreeSerde.RoundTrips, hjson, linkAndFile_read]
  exact ((tree_canonical_form linkAndFileSerde).1 linkAndFile linkAndFile_valid (by decide)).2 hserde

end FileMirror.TreeFormat
