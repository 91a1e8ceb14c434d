import FileMirror.SnapshotCoverage
import FileMirror.Scanner

set_option autoImplicit false

/-!
# Backups of a mirror

`create_snapshot`: the requested paths are archived past the filters, of which the last exclude is
the state directory by its canonical name. Globs and ignore files are parameters, and an entry that
cannot be read is skipped.
-/

namespace FileMirror

/-- What `globset` makes of a pattern. -/
structure GlobSet where
  builds : String → Bool
  isMatch : String → String → Bool

def pathText (path : List String) : String :=
  if path = [] then "/" else String.ofList (path.flatMap fun name => '/' :: name.toList)

structure Excludes where
  globs : List String
  dirs : List (List String)

namespace Excludes

def new (glob : GlobSet) (patterns : List String) : Option Excludes :=
  if patterns.all glob.builds then
    some {
      globs := patterns
      dirs := (patterns.filter fun pattern => pattern.toList.head? = some '/').map fun pattern =>
        (FileSystem.components pattern).filter fun part => part ≠ "." }
  else none

def excluded (glob : GlobSet) (excludes : Excludes) (path : List String) : Bool :=
  path.getLast?.any (fun name => excludes.globs.any fun pattern => glob.isMatch pattern name) ||
    excludes.globs.any (fun pattern => glob.isMatch pattern (pathText path)) ||
    excludes.dirs.any fun dir => dir.isPrefixOf path

end Excludes

inductive Match where
  | none
  | ignore
  | whitelist

/-- `rules` are those of the ignore file in a directory that has one. -/
structure MirrorFilter where
  root : List String
  rules : List String → Option (List String → Bool → Match)

namespace MirrorFilter

def opinion (filter : MirrorFilter) (path : List String) (isDir : Bool) (dir : List String) : Match :=
  (filter.rules dir).elim .none fun rules => rules path isDir

def deepest (filter : MirrorFilter) (path : List String) (isDir : Bool) :
    List (List String) → Bool
  | [] => false
  | dir :: above =>
      match filter.opinion path isDir dir with
      | .ignore => true
      | .whitelist => false
      | .none => if dir = filter.root then false else deepest filter path isDir above

def excluded (filter : MirrorFilter) (path : List String) (isDir : Bool) : Bool :=
  if filter.root <+: path ∧ path ≠ filter.root then
    path.getLast?.any (fun name => name ∈ alwaysExclude) ||
      filter.deepest path isDir path.inits.reverse.tail
  else false

end MirrorFilter

/-- Where the content of a file node comes from: a file that is read, or the mirror's object for a
placeholder. -/
inductive Content where
  | read (path : List String)
  | fetched (path : List String)
  deriving DecidableEq

def Proper (name : String) : Prop := name ≠ "" ∧ name ≠ "." ∧ name ≠ ".." ∧ '/' ∉ name.toList

namespace FsNode

variable {μ : Type}

def isDir : FsNode μ → Bool
  | .dir _ _ => true
  | _ => false

mutual

def Named : FsNode μ → Prop
  | .dir _ children => NamedAll children
  | _ => True

def NamedAll : List (String × FsNode μ) → Prop
  | [] => True
  | (name, node) :: rest => Proper name ∧ Named node ∧ NamedAll rest

end

end FsNode

/-- `stub` is whether `placeholder::read` takes a file for a placeholder, and `fails` are the paths
that cannot be read. -/
structure Walk (μ : Type) where
  excluded : List String → Bool → Bool
  offloaded : Bool
  stub : μ → Bool
  fails : List String → Bool

namespace Walk

variable {μ : Type} (w : Walk μ)

/-- The name that a placeholder stands for. -/
def stubOf (name : String) : FsNode μ → Option String
  | .file info => if w.stub info then (stripStubSuffix name).filter fun real => real ≠ "" else none
  | _ => none

mutual

/-- `archive_entry`; there is no node of what is skipped. -/
def entry (path : List String) : FsNode μ → Option (SnapNode μ Content)
  | .file _ => if w.fails path then none else some (.file (.read path))
  | .symlink info target => some (.symlink info target)
  | .special => none
  | .dir info children =>
      some (.dir info (newTree
        (if w.fails path then [] else dir path (children.map Prod.fst) children)))

/-- `archive_dir` -/
def dir (path names : List String) :
    List (String × FsNode μ) → List (String × SnapNode μ Content)
  | [] => []
  | (name, node) :: rest =>
      (if w.excluded (path ++ [name]) node.isDir then none
        else
          match w.stubOf name node with
          | some real =>
              -- beside its real file a placeholder is left out
              if w.offloaded = true ∧ real ∉ names ∧ w.fails (path ++ [name]) = false then
                some (real, .file (.fetched (path ++ [name])))
              else none
          | none => (entry (path ++ [name]) node).map (Prod.mk name)).toList ++
        dir path names rest

end

variable (fs : FileSystem μ)

mutual

def archiveTrie (path : List String) : Trie → Option (List (String × SnapNode μ Content))
  | .node _ children => (archiveChildren path children).map newTree

def archiveChild (path : List String) : Trie → Option (Option (SnapNode μ Content))
  | .node true _ => (fs.lstat path).map (w.entry path)
  | .node false children =>
      match fs.stat path with
      | some (.dir info _) =>
          (archiveChildren path children).map fun nodes => some (.dir info (newTree nodes))
      | _ => none

def archiveChildren (path : List String) :
    List (String × Trie) → Option (List (String × SnapNode μ Content))
  | [] => some []
  | (name, child) :: rest =>
      (archiveChild (path ++ [name]) child).bind fun archived =>
        (archiveChildren path rest).map fun nodes => (archived.map (Prod.mk name)).toList ++ nodes

end

end Walk

structure Host (μ : Type) where
  fs : FileSystem μ
  named : fs.root.Named
  glob : GlobSet
  rules : List String → Option (List String → Bool → Match)
  stub : μ → Bool
  fails : List String → Bool

structure Request where
  paths : List String
  excludes : List String
  mirrorignore : Bool
  offloaded : Bool

section Snapshot

variable {μ : Type}

def FileSystem.realPath (fs : FileSystem μ) (path : List String) : Option (List String) :=
  fs.resolve true FileSystem.maxSymlinks path []

def FileSystem.canonicalize (fs : FileSystem μ) (path : String) : Option (List String) :=
  fs.realPath (FileSystem.components path)

namespace Request

def resolvedPaths (request : Request) (fs : FileSystem μ) (root : List String) : List String :=
  if request.paths = [] then [pathText root]
  else
    request.paths.map fun path =>
      if fs.canonicalize path = some root then pathText root else path

def filters (request : Request) (host : Host μ) (root : List String) :
    Option (List String → Bool → Bool) :=
  (Excludes.new host.glob (request.excludes ++ [pathText (root ++ [".mirror"])])).map
    fun excludes path isDir =>
      excludes.excluded host.glob path ||
        (request.mirrorignore && MirrorFilter.excluded ⟨root, host.rules⟩ path isDir)

/-- The run's walk, with `root` resolved. -/
def walk (request : Request) (host : Host μ) (root : List String) : Option (Walk μ) :=
  (request.filters host root).map fun excluded =>
    { excluded, offloaded := request.offloaded, stub := host.stub, fails := host.fails }

def kept (request : Request) (host : Host μ) (root : List String) : List (List String) :=
  normalizePaths (request.resolvedPaths host.fs root)

end Request

/-- The root tree of the snapshot that is published, if one is. -/
def createSnapshot (host : Host μ) (root : String) (request : Request) :
    Option (List (String × SnapNode μ Content)) :=
  (host.fs.canonicalize root).bind fun real =>
    (request.walk host real).bind fun walk =>
      if ∃ path ∈ request.kept host real, (host.fs.lstat path).isNone then none
      else walk.archiveTrie host.fs [] (buildTrie (request.kept host real))

end Snapshot

end FileMirror
