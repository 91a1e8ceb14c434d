import FileMirror.Outermost
import Mathlib.Data.String.Basic

set_option autoImplicit false

namespace FileMirror

theorem not_mem_splitOn {α : Type*} [DecidableEq α] {sep : α} {l part : List α}
    (h : part ∈ l.splitOn sep) : sep ∉ part := by
  induction l generalizing part with
  | nil =>
      rw [List.splitOn_nil, List.mem_singleton] at h
      rw [h]
      exact List.not_mem_nil
  | cons a l ih =>
      rw [List.splitOn_cons_eq_if_modifyHead] at h
      split_ifs at h with hsep
      · obtain rfl | h := List.mem_cons.mp h
        · exact List.not_mem_nil
        · exact ih h
      · obtain ⟨first, rest, hl⟩ := List.exists_cons_of_ne_nil (List.splitOn_ne_nil sep l)
        rw [hl, List.modifyHead_cons, List.mem_cons] at h
        rw [hl] at ih
        obtain rfl | h := h
        · have hfirst := ih (List.mem_cons_self ..)
          rw [List.mem_cons, not_or]
          exact ⟨fun heq => hsep (by rw [heq, beq_self_eq_true]), hfirst⟩
        · exact ih (List.mem_cons_of_mem _ h)

/-- `special` stands for sockets, devices and FIFOs. -/
inductive FsNode (μ : Type) where
  | file (info : μ)
  | symlink (info : μ) (target : String)
  | special
  | dir (info : μ) (children : List (String × FsNode μ))

namespace FsNode

variable {μ : Type}

def child (name : String) : FsNode μ → Option (FsNode μ)
  | .dir _ children => children.lookup name
  | _ => none

def descend : FsNode μ → List String → Option (FsNode μ)
  | node, [] => some node
  | node, name :: rest => (node.child name).bind fun next => next.descend rest

mutual

def Distinct : FsNode μ → Prop
  | .dir _ children => (children.map Prod.fst).Nodup ∧ DistinctAll children
  | _ => True

def DistinctAll : List (String × FsNode μ) → Prop
  | [] => True
  | (_, node) :: rest => Distinct node ∧ DistinctAll rest

end

end FsNode

structure FileSystem (μ : Type) where
  info : μ
  children : List (String × FsNode μ)
  distinct : (FsNode.dir info children).Distinct

namespace FileSystem

variable {μ : Type}

def root (fs : FileSystem μ) : FsNode μ := .dir fs.info fs.children

/-- `40` links are followed, and the next one is an error. -/
def maxSymlinks : ℕ := 40

def components (path : String) : List String :=
  ((path.toList.splitOn '/').map String.ofList).filter fun part => part ≠ ""

/-- From the directory at `place` on; `again` goes on where a link leads, and `followLast` is whether
that holds of a link at the end too. -/
def follow (fs : FileSystem μ) (followLast : Bool)
    (again : List String → List String → Option (List String)) :
    List String → List String → Option (List String)
  | [], place => some place
  | name :: rest, place =>
      if name = "." then follow fs followLast again rest place
      else if name = ".." then follow fs followLast again rest place.dropLast
      else
        match fs.root.descend (place ++ [name]) with
        | none => none
        | some (.dir _ _) => follow fs followLast again rest (place ++ [name])
        | some (.symlink _ target) =>
            if rest = [] ∧ followLast = false then some (place ++ [name])
            else
              again (components target ++ rest)
                (if target.toList.head? = some '/' then [] else place)
        | some _ => if rest = [] then some (place ++ [name]) else none

def resolve (fs : FileSystem μ) (followLast : Bool) :
    ℕ → List String → List String → Option (List String)
  | 0 => fs.follow followLast fun _ _ => none
  | links + 1 => fs.follow followLast (fs.resolve followLast links)

/-- `fs::symlink_metadata` -/
def lstat (fs : FileSystem μ) (path : List String) : Option (FsNode μ) :=
  (fs.resolve false maxSymlinks path []).bind fs.root.descend

/-- `fs::metadata` -/
def stat (fs : FileSystem μ) (path : List String) : Option (FsNode μ) :=
  (fs.resolve true maxSymlinks path []).bind fs.root.descend

end FileSystem

def cleanPath (path : String) : List String :=
  (FileSystem.components path).foldl
    (fun out part =>
      if part = "." then out else if part = ".." then out.dropLast else out ++ [part]) []

def normalizePaths (paths : List String) : List (List String) :=
  Outermost.outermost (paths.map cleanPath)

/-- `ρ` is what archiving a file records of it. -/
inductive SnapNode (μ ρ : Type) where
  | file (recorded : ρ)
  | symlink (info : μ) (target : String)
  | dir (info : μ) (children : List (String × SnapNode μ ρ))

inductive Trie where
  | node (terminal : Bool) (children : List (String × Trie))

namespace Trie

def terminal : Trie → Bool
  | .node terminal _ => terminal

def children : Trie → List (String × Trie)
  | .node _ children => children

def default : Trie := .node false []

def alterChild (f : Trie → Trie) (name : String) : List (String × Trie) → List (String × Trie)
  | [] => [(name, f default)]
  | (other, child) :: rest =>
      if name = other then (other, f child) :: rest else (other, child) :: alterChild f name rest

def insert : List String → Trie → Trie
  | [], trie => .node true trie.children
  | part :: rest, trie => .node trie.terminal (alterChild (insert rest) part trie.children)

end Trie

section Archive

variable {μ ρ : Type} (archiveFile : List String → μ → ρ) (skips : List String → Bool)

/-- `Tree::new` -/
def newTree (nodes : List (String × SnapNode μ ρ)) : List (String × SnapNode μ ρ) :=
  nodes.insertionSort fun a b => a.1 ≤ b.1

mutual

/-- `none` ends the run, and no node is an entry that was skipped. -/
def archiveEntry (path : List String) : FsNode μ → Option (Option (SnapNode μ ρ))
  | .file info => some (some (.file (archiveFile path info)))
  | .symlink info target => some (some (.symlink info target))
  | .special => if skips path then some none else none
  | .dir info children =>
      (archiveDir path children).map fun nodes => some (.dir info (newTree nodes))

def archiveDir (path : List String) :
    List (String × FsNode μ) → Option (List (String × SnapNode μ ρ))
  | [] => some []
  | (name, node) :: rest =>
      (archiveEntry (path ++ [name]) node).bind fun archived =>
        (archiveDir path rest).map fun nodes => (archived.map (Prod.mk name)).toList ++ nodes

end

variable (fs : FileSystem μ)

mutual

def archiveTrie (dir : List String) : Trie → Option (List (String × SnapNode μ ρ))
  | .node _ children => (archiveChildren dir children).map newTree

def archiveChild (path : List String) : Trie → Option (Option (SnapNode μ ρ))
  | .node true _ => (fs.lstat path).bind (archiveEntry archiveFile skips path)
  | .node false children =>
      match fs.stat path with
      | some (.dir info _) =>
          (archiveChildren path children).map fun nodes => some (.dir info (newTree nodes))
      | _ => none

def archiveChildren (dir : List String) :
    List (String × Trie) → Option (List (String × SnapNode μ ρ))
  | [] => some []
  | (name, child) :: rest =>
      (archiveChild (dir ++ [name]) child).bind fun archived =>
        (archiveChildren dir rest).map fun nodes => (archived.map (Prod.mk name)).toList ++ nodes

end

def buildTrie (paths : List (List String)) : Trie :=
  paths.foldl (fun trie path => trie.insert path) .default

/-- The root tree of the snapshot that is published, if one is. -/
def backup (paths : List String) : Option (List (String × SnapNode μ ρ)) :=
  let cleaned := normalizePaths paths
  if paths = [] ∨ ∃ path ∈ cleaned, (fs.lstat path).isNone then none
  else archiveTrie archiveFile skips fs [] (buildTrie cleaned)

end Archive

end FileMirror
