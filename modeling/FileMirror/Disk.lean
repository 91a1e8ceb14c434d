import FileMirror.PathArchive
import FileMirror.Patches
import Mathlib.Logic.Function.Basic

set_option autoImplicit false

/-!
# The disk

What a program does to files through system calls, whatever there is on the disk before: links to files
are counted places of one inode, symlinks lead elsewhere, and the time of a directory is that of its
last change. A place is a list of names from the root on, without links.
-/

namespace FileMirror

structure FileInfo where
  mode : ℕ
  uid : ℕ
  gid : ℕ
  mtime : ℤ
  atime : ℤ
  deriving DecidableEq

inductive Held where
  | dir (info : FileInfo)
  | file (inode : ℕ)
  | symlink (target : String)
  | special
  deriving DecidableEq

def Held.alter (f : FileInfo → FileInfo) : Held → Held
  | .dir info => .dir (f info)
  | h => h

structure Inode where
  bytes : List UInt8
  info : FileInfo
  deriving DecidableEq

inductive SysError where
  | notFound
  | alreadyExists
  | other (message : String)
  deriving DecidableEq

def SysError.message : SysError → String
  | .notFound => "No such file or directory (os error 2)"
  | .alreadyExists => "File exists (os error 17)"
  | .other message => message

def notADirectory : SysError := .other "Not a directory (os error 20)"

def tooManyLinks : SysError := .other "Too many levels of symbolic links (os error 40)"

/-- Files are made as `user`, under inode numbers from `next` on. -/
structure Disk where
  held : List String → Option Held
  inodes : ℕ → Inode
  next : ℕ
  user : ℕ × ℕ
  fresh : ∀ place i, held place = some (.file i) → i < next

inductive Handle where
  | dir (place : List String)
  | file (inode : ℕ)

namespace Disk

def put (d : Disk) (place : List String) (h : Held) (hh : ∀ i, h = .file i → i < d.next) : Disk :=
  { d with
    held := fun p => if p = place then some h else d.held p
    fresh := by
      intro p i hp
      split_ifs at hp
      · exact hh i (Option.some.inj hp)
      · exact d.fresh p i hp }

def erase (d : Disk) (gone : List String → Bool) : Disk :=
  { d with
    held := fun p => if gone p then none else d.held p
    fresh := by
      intro p i hp
      split_ifs at hp
      exact d.fresh p i hp }

def setInode (d : Disk) (i : ℕ) (inode : Inode) : Disk :=
  { d with inodes := Function.update d.inodes i inode }

def alterDir (d : Disk) (place : List String) (f : FileInfo → FileInfo) : Disk :=
  { d with
    held := fun p => if p = place then (d.held p).map (Held.alter f) else d.held p
    fresh := by
      intro p i hp
      split_ifs at hp
      · cases hheld : d.held p with
        | none =>
            rw [hheld] at hp
            cases hp
        | some h =>
            rw [hheld] at hp
            cases h with
            | file j =>
                cases hp
                exact d.fresh p i hheld
            | _ => cases hp
      · exact d.fresh p i hp }

def touch (d : Disk) (place : List String) (now : ℤ) : Disk :=
  d.alterDir place fun info => { info with mtime := now }

def newInfo (d : Disk) (mode : ℕ) (now : ℤ) : FileInfo := ⟨mode, d.user.1, d.user.2, now, now⟩

/-- From the directory at `place` on; `again` goes on where a link leads, and `followLast` is whether
that holds of a link at the end too. -/
def follow (d : Disk) (followLast : Bool)
    (again : List String → List String → Except SysError (List String)) :
    List String → List String → Except SysError (List String)
  | [], place => .ok place
  | name :: rest, place =>
      if name = "." then follow d followLast again rest place
      else if name = ".." then follow d followLast again rest place.dropLast
      else
        match d.held (place ++ [name]) with
        | none => .error .notFound
        | some (.dir _) => follow d followLast again rest (place ++ [name])
        | some (.symlink target) =>
            if rest = [] ∧ followLast = false then .ok (place ++ [name])
            else
              again (FileSystem.components target ++ rest)
                (if target.toList.head? = some '/' then [] else place)
        | some _ => if rest = [] then .ok (place ++ [name]) else .error notADirectory

def resolve (d : Disk) (followLast : Bool) :
    ℕ → List String → List String → Except SysError (List String)
  | 0 => d.follow followLast fun _ _ => .error tooManyLinks
  | links + 1 => d.follow followLast (d.resolve followLast links)

def canonicalize (d : Disk) (path : List String) : Except SysError (List String) :=
  d.resolve true FileSystem.maxSymlinks path []

/-- The place that a path leads to, if it is not followed at its end. -/
def place (d : Disk) (path : List String) : Except SysError (List String) :=
  d.resolve false FileSystem.maxSymlinks path []

/-- `fs::symlink_metadata` -/
def lstat (d : Disk) (path : List String) : Except SysError Held :=
  match d.place path with
  | .error e => .error e
  | .ok p => (d.held p).elim (.error .notFound) .ok

def room (d : Disk) (path : List String) : Except SysError (List String) :=
  match path.getLast? with
  | none => .error .alreadyExists
  | some name =>
      match d.canonicalize path.dropLast with
      | .error e => .error e
      | .ok parent =>
          match d.held parent with
          | some (.dir _) =>
              if (d.held (parent ++ [name])).isSome then .error .alreadyExists
              else .ok (parent ++ [name])
          | _ => .error notADirectory

def mkdir (d : Disk) (path : List String) (now : ℤ) : Except SysError Disk :=
  match d.room path with
  | .error e => .error e
  | .ok p => .ok ((d.put p (.dir (d.newInfo 493 now)) (by simp)).touch p.dropLast now)

def symlink (d : Disk) (target : String) (path : List String) (now : ℤ) : Except SysError Disk :=
  match d.room path with
  | .error e => .error e
  | .ok p => .ok ((d.put p (.symlink target) (by simp)).touch p.dropLast now)

def addFile (d : Disk) (p : List String) (now : ℤ) : Disk :=
  put { d with
    inodes := Function.update d.inodes d.next ⟨[], d.newInfo 384 now⟩
    next := d.next + 1
    fresh := fun q i hq => Nat.lt_succ_of_lt (d.fresh q i hq) } p (.file d.next)
    (by
      rintro i ⟨⟩
      exact Nat.lt_succ_self _)

/-- `open` with `create_new`, for writing. -/
def openNew (d : Disk) (path : List String) (now : ℤ) : Except SysError (ℕ × Disk) :=
  match d.room path with
  | .error e => .error e
  | .ok p => .ok (d.next, (d.addFile p now).touch p.dropLast now)

/-- `open` for writing, with `O_NOFOLLOW`. -/
def openWrite (d : Disk) (path : List String) : Except SysError ℕ :=
  match d.lstat path with
  | .error e => .error e
  | .ok (.file i) => .ok i
  | .ok (.symlink _) => .error tooManyLinks
  | .ok (.dir _) => .error (.other "Is a directory (os error 21)")
  | .ok .special => .error (.other "No such device or address (os error 6)")

/-- `open` with `create`, `truncate` and `O_NOFOLLOW`. -/
def openTruncate (d : Disk) (path : List String) (now : ℤ) : Except SysError (ℕ × Disk) :=
  match d.openWrite path with
  | .ok i =>
      .ok (i, d.setInode i ⟨[], { (d.inodes i).info with mtime := now }⟩)
  | .error .notFound => d.openNew path now
  | .error e => .error e

def setLen (d : Disk) (i size : ℕ) (now : ℤ) : Disk :=
  d.setInode i ⟨(d.inodes i).bytes.takeD size 0, { (d.inodes i).info with mtime := now }⟩

def writeAllAt (d : Disk) (i : ℕ) (data : List UInt8) (offset : ℕ) (now : ℤ) : Disk :=
  d.setInode i
    ⟨Patches.writeAt 0 (d.inodes i).bytes offset data, { (d.inodes i).info with mtime := now }⟩

def removeFile (d : Disk) (path : List String) (now : ℤ) : Except SysError Disk :=
  match d.place path with
  | .error e => .error e
  | .ok p => .ok ((d.erase fun q => q = p).touch p.dropLast now)

def removeDirAll (d : Disk) (path : List String) (now : ℤ) : Except SysError Disk :=
  match d.place path with
  | .error e => .error e
  | .ok p => .ok ((d.erase fun q => p.isPrefixOf q).touch p.dropLast now)

/-- What is left when the removal of a directory stops: `removed` is gone. -/
def removeSome (d : Disk) (path : List String) (removed : List (List String)) : Disk :=
  match d.place path with
  | .error _ => d
  | .ok p => d.erase fun q => p.isPrefixOf q && decide (q ∈ removed)

def hardLink (d : Disk) (existing path : List String) (now : ℤ) : Except SysError Disk :=
  match d.place existing with
  | .error e => .error e
  | .ok source =>
      match hheld : d.held source with
      | none => .error .notFound
      | some (.dir _) => .error (.other "Operation not permitted (os error 1)")
      | some h =>
          match d.room path with
          | .error e => .error e
          | .ok p =>
              .ok ((d.put p h fun i hi => d.fresh source i (hi ▸ hheld)).touch p.dropLast now)

/-- `open` for reading, with `O_NOFOLLOW`. -/
def openRead (d : Disk) (path : List String) : Except SysError Handle :=
  match d.place path with
  | .error e => .error e
  | .ok p =>
      match d.held p with
      | some (.dir _) => .ok (.dir p)
      | some (.file i) => .ok (.file i)
      | some (.symlink _) => .error tooManyLinks
      | some .special => .error (.other "No such device or address (os error 6)")
      | none => .error .notFound

def alter (d : Disk) (f : FileInfo → FileInfo) : Handle → Disk
  | .dir p => d.alterDir p f
  | .file i => d.setInode i ⟨(d.inodes i).bytes, f (d.inodes i).info⟩

def fchown (d : Disk) (h : Handle) (uid gid : ℕ) : Disk :=
  d.alter (fun info => { info with uid := uid, gid := gid, mode := info.mode &&& 1023 }) h

def setPermissions (d : Disk) (h : Handle) (mode : ℕ) : Disk :=
  d.alter (fun info => { info with mode := mode }) h

def setTimes (d : Disk) (h : Handle) (mtime : ℤ) : Disk :=
  d.alter (fun info => { info with mtime := mtime, atime := mtime }) h

end Disk

end FileMirror
