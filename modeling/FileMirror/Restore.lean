import FileMirror.Attempts
import FileMirror.Disk
import FileMirror.FilteredArchive
import FileMirror.VerifyReads

set_option autoImplicit false

/-!
# Restoring a snapshot

`restorer.rs`: what a plan makes of the disk, call by call. The target is a directory that is there.
Each call has its turn, at which the clock stands somewhere and the system may report a fault of its
own; packs are read at once, in any order of their steps.
-/

namespace FileMirror.Restore

open Attempts FileMirror.Restorer PackFormat Verify

structure Stats where
  files : ℕ
  dirs : ℕ
  symlinks : ℕ
  hardlinks : ℕ
  bytes : ℕ
  deriving DecidableEq

/-- `removed` is what the removal of a directory has done by then, `written` how much of the data is
in the file. -/
structure Fault where
  message : String
  removed : List (List String)
  written : ℕ

structure Turn where
  now : ℤ
  fault : Option Fault

structure World where
  disk : Disk
  calls : ℕ
  stats : Stats

abbrev Restoring (α : Type) := Attempt (Failure BackupError) World α

def stop {α : Type} (e : BackupError) : Restoring α := throw (.error e)

/-- `?` on what a system call comes to. -/
def orStop {α : Type} (f : SysError → BackupError) : Except SysError α → Restoring α
  | .ok a => pure a
  | .error e => stop (f e)

def orError {α : Type} : Except BackupError α → Restoring α
  | .ok a => pure a
  | .error e => stop e

def io (e : SysError) : BackupError := .io e.message

def addStats (f : Stats → Stats) : Restoring PUnit := modify fun w => { w with stats := f w.stats }

/-- `turns` are those of the system calls. -/
structure Restorer where
  target : List String
  resolvedTarget : List String
  overwrite : Bool
  turns : ℕ → Turn
  repo : Verify.Repository

/-- A step of reading a pack: a range is fetched, a blob in it decoded, a chunk written. -/
inductive Atom where
  | fetch (packId : ObjectId) (range : ℕ × ℕ)
  | decode (packId : ObjectId) (range : ℕ × ℕ) (entry : Entry)
  | write (packId : ObjectId) (range : ℕ × ℕ) (entry : Entry) (destination : ℕ × ℕ)

namespace Restorer

variable (r : Restorer)

def call {α : Type} (f : ℤ → Disk → Except SysError (α × Disk)) (broken : ℤ → Fault → Disk → Disk) :
    Restoring (Except SysError α) := fun w =>
  match (r.turns w.calls).fault with
  | some fault =>
      .ok (.error (.other fault.message)) ⟨broken (r.turns w.calls).now fault w.disk, w.calls + 1, w.stats⟩
  | none =>
      match f (r.turns w.calls).now w.disk with
      | .error e => .ok (.error e) ⟨w.disk, w.calls + 1, w.stats⟩
      | .ok (a, disk) => .ok (.ok a) ⟨disk, w.calls + 1, w.stats⟩

def ask {α : Type} (f : Disk → Except SysError α) : Restoring (Except SysError α) :=
  r.call (fun _ d => (f d).map fun a => (a, d)) fun _ _ d => d

def act (f : Disk → ℤ → Except SysError Disk) : Restoring (Except SysError PUnit) :=
  r.call (fun now d => (f d now).map fun d => (⟨⟩, d)) fun _ _ d => d

def path (rel : String) : List String := r.target ++ FileSystem.components rel

def checkContained (dir : List String) : Restoring PUnit := do
  let resolved ← r.ask (fun d => d.canonicalize dir) >>= orStop io
  if r.resolvedTarget <+: resolved then pure ⟨⟩
  else
    stop (.invalid s!"{pathText dir} resolves to {pathText resolved}, outside the restore target")

def clear (path : List String) : Restoring PUnit := do
  match ← r.ask fun d => d.lstat path with
  | .error .notFound => pure ⟨⟩
  | .error e => stop (io e)
  | .ok h =>
      if r.overwrite = false then
        stop (.invalid s!"{pathText path} already exists; pass --overwrite to replace it")
      else
        match h with
        | .dir _ =>
            r.call (fun now d => (d.removeDirAll path now).map fun d => (⟨⟩, d))
              (fun _ fault d => d.removeSome path fault.removed) >>= orStop io
        | _ => r.act (fun d => d.removeFile path) >>= orStop io

def ensureDir (path : List String) : Restoring PUnit := do
  match ← r.ask fun d => d.lstat path with
  | .ok (.dir _) => pure ⟨⟩
  | .ok _ => do
      r.clear path
      r.act (fun d => d.mkdir path) >>= orStop io
  | .error .notFound => r.act (fun d => d.mkdir path) >>= orStop io
  | .error e => stop (io e)

def makeDir (rel : String) : Restoring PUnit := do
  r.ensureDir (r.path rel)
  r.checkContained (r.path rel)
  addStats fun s => { s with dirs := s.dirs + 1 }

def makeSymlink (rel : String) (node : TreeFormat.Node) : Restoring PUnit := do
  r.checkContained (r.path rel).dropLast
  r.clear (r.path rel)
  let target ← node.linkTarget.elim (throw .panicked) pure
  r.act (fun d => d.symlink target (r.path rel)) >>= orStop io
  addStats fun s => { s with symlinks := s.symlinks + 1 }

def clearOther (path : List String) : Restoring PUnit := do
  match ← r.ask fun d => d.lstat path with
  | .ok (.file _) => pure ⟨⟩
  | .ok _ => r.clear path
  | .error _ => pure ⟨⟩

def creating (path : List String) : SysError → BackupError
  | .alreadyExists =>
      .invalid s!"{pathText path} already exists; pass --overwrite to replace it"
  | e => .invalid s!"creating {pathText path}: {e.message}"

def createFile (path : List String) (size : ℕ) : Restoring PUnit := do
  r.checkContained path.dropLast
  r.clearOther path
  let inode ← r.call (fun now d =>
    if r.overwrite then d.openTruncate path now else d.openNew path now) (fun _ _ d => d) >>=
      orStop (creating path)
  r.act (fun d now => .ok (d.setLen inode size now)) >>= orStop io

def writeAt (path : List String) (data : List UInt8) (offset : ℕ) : Restoring PUnit := do
  let inode ← r.ask (fun d => d.openWrite path) >>= orStop fun e =>
    .invalid s!"opening {pathText path}: {e.message}"
  if data = [] then pure ⟨⟩
  else
    r.call (fun now d => .ok (⟨⟩, d.writeAllAt inode data offset now))
      (fun now fault d => d.writeAllAt inode (data.take fault.written) offset now) >>= orStop fun e =>
        .invalid s!"writing {pathText path}: {e.message}"

def applyMetadata (path : List String) (node : TreeFormat.Node) : Restoring PUnit :=
  if node.nodeType = .symlink then pure ⟨⟩
  else do
    let handle ← r.ask (fun d => d.openRead path) >>= orStop fun e =>
      .invalid s!"opening {pathText path}: {e.message}"
    let _ ← r.act fun d _ => .ok (d.fchown handle node.uid node.gid)
    r.act (fun d _ => .ok (d.setPermissions handle (node.mode &&& modeMask))) >>= orStop fun e =>
      .invalid s!"setting permissions on {pathText path}: {e.message}"
    r.act (fun d _ => .ok (d.setTimes handle node.mtime)) >>= orStop fun e =>
      .invalid s!"setting times on {pathText path}: {e.message}"

structure Split where
  firstOfInode : List ((ℕ × ℕ) × List String)
  toWrite : List (List String × TreeFormat.Node)
  links : List (List String × List String)

def isHardlink (node : TreeFormat.Node) : Bool :=
  node.nodeType = .file && decide (1 < node.links) && decide (node.inode ≠ 0)

def splitOne (s : Split) (file : String × TreeFormat.Node) : Split :=
  let path := r.path file.1
  if isHardlink file.2 then
    match s.firstOfInode.lookup (file.2.device, file.2.inode) with
    | some existing => { s with links := s.links ++ [(existing, path)] }
    | none =>
        { s with
          firstOfInode := ((file.2.device, file.2.inode), path) :: s.firstOfInode
          toWrite := s.toWrite ++ [(path, file.2)] }
  else { s with toWrite := s.toWrite ++ [(path, file.2)] }

def split (files : List (String × TreeFormat.Node)) : Split :=
  files.foldl r.splitOne ⟨[], [], []⟩

def addDestination (byPack : IdMap (IdMap BlobRead)) (l : Location) (chunk : ObjectId)
    (destination : ℕ × ℕ) : IdMap (IdMap BlobRead) :=
  let blobs := byPack[l.packId]?.getD ∅
  let read := blobs[chunk]?.getD ⟨l.entry, []⟩
  byPack.insert l.packId
    (blobs.insert chunk { read with destinations := read.destinations ++ [destination] })

def collectChunks (path : List String) (file : ℕ) :
    List ObjectId → ℕ → IdMap (IdMap BlobRead) → Except BackupError (ℕ × IdMap (IdMap BlobRead))
  | [], offset, byPack => .ok (offset, byPack)
  | chunk :: rest, offset, byPack =>
      match r.repo.index.lookup chunk with
      | none => .error (.incomplete
          s!"{pathText path} references chunk {short chunk}, which no index lists")
      | some l =>
          collectChunks path file rest (offset + l.entry.plainLength)
            (addDestination byPack l chunk (file, offset))

def collectFiles : ℕ → List (List String × TreeFormat.Node) → IdMap (IdMap BlobRead) →
    Except BackupError (IdMap (IdMap BlobRead))
  | _, [], byPack => .ok byPack
  | file, (path, node) :: rest, byPack =>
      match r.collectChunks path file node.content 0 byPack with
      | .error e => .error e
      | .ok (offset, byPack) =>
          if offset ≠ node.size then .error (.format
            s!"{pathText path}: chunks add up to {offset} bytes but the snapshot records {node.size}")
          else collectFiles (file + 1) rest byPack

def groupAtoms (packId : ObjectId) (group : List BlobRead) : List Atom :=
  .fetch packId (groupRange group) :: group.flatMap fun read =>
    .decode packId (groupRange group) read.entry ::
      read.destinations.map fun destination =>
        .write packId (groupRange group) read.entry destination

/-- `read_pack`, step by step. -/
def readPack (pack : ObjectId × IdMap BlobRead) : List Atom :=
  (packReads (pack.2.toList.map Prod.snd)).flatMap (groupAtoms pack.1)

def blobIn (packId : ObjectId) (range : ℕ × ℕ) (e : Entry) : Metered ReadError (List UInt8) := do
  let data ← r.repo.getRange packId range.1 (range.2 - range.1)
  let sealedBytes ← Metered.slice data (e.offset - range.1) (e.offset - range.1 + e.length)
  (PackFormat.decodeBlob r.repo.keys r.repo.zstd e sealedBytes).mapError .ofPack

def asBackup : ReadError → BackupError
  | .backup e => e
  | e => .mirror e.message

def fromRead {α : Type} (x : Metered ReadError α) : Restoring α :=
  match x.result with
  | .ok a => pure a
  | .error (.error e) => stop (asBackup e)
  | .error .panicked => throw .panicked

def perform (paths : List (List String)) : Atom → Restoring PUnit
  | .fetch packId range => do
      let _ ← fromRead (r.repo.getRange packId range.1 (range.2 - range.1))
  | .decode packId range e => do
      let _ ← fromRead (r.blobIn packId range e)
  | .write packId range e destination => do
      let plaintext ← fromRead (r.blobIn packId range e)
      match paths[destination.1]? with
      | none => throw .panicked
      | some path => r.writeAt path plaintext destination.2

/-- `order` puts the steps of all packs in one order. -/
structure Schedule where
  order : List (List Atom) → List Atom
  interleaved : ∀ tasks, Patches.Interleaved tasks (order tasks)
  late : List Atom → List Atom
  among : ∀ rest, late rest ⊆ rest

def finishFile (file : List String × TreeFormat.Node) : Restoring PUnit := do
  r.applyMetadata file.1 file.2
  addStats fun s => { s with files := s.files + 1, bytes := s.bytes + file.2.size }

def linkFile (link : List String × List String) : Restoring PUnit := do
  r.checkContained link.2.dropLast
  r.clear link.2
  r.act (fun d => d.hardLink link.1 link.2) >>= orStop io
  addStats fun s => { s with hardlinks := s.hardlinks + 1 }

def restoreFiles (s : Schedule) (files : List (String × TreeFormat.Node)) : Restoring PUnit := do
  let split := r.split files
  split.toWrite.forM fun file => r.createFile file.1 file.2.size
  let byPack ← orError (r.collectFiles 0 split.toWrite ∅)
  tryCollect s.late (r.perform (split.toWrite.map Prod.fst)) (s.order (byPack.toList.map readPack))
  split.toWrite.forM r.finishFile
  split.links.forM r.linkFile

/-- The repository as planning sees it: what a tree is decoded from. -/
def planning : FileMirror.Restorer.Repository where
  plaintext := fun id =>
    match hread : (r.repo.treeBytes id).result with
    | .ok plaintext => .ok plaintext
    | .error (.error e) => .error (asBackup e)
    | .error .panicked => (treeBytes_unbroken hread).elim
  serde := r.repo.serde

/-- `restore`, from the plan on. -/
def restore (s : Schedule) (plan : FileMirror.Restorer.Plan) : Restoring PUnit := do
  plan.dirs.forM fun dir => r.makeDir dir.1
  plan.symlinks.forM fun link => r.makeSymlink link.1 link.2
  r.restoreFiles s plan.files
  plan.dirs.reverse.forM fun dir => r.applyMetadata (r.path dir.1) dir.2.1

end Restorer

end FileMirror.Restore
