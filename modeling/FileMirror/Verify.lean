import FileMirror.IndexListings
import FileMirror.PackFormat
import FileMirror.Restorer

set_option autoImplicit false

/-!
# Verifying a backup repository

`verify.rs`, through a handle that has just been opened: packs are read at the places that the index
gives, and trees from the local cache where it has them. The store's operations succeed. In what order
the maps of the source are gone through is not told, and here it is that of the ids.
-/

namespace FileMirror.Verify

open PackFormat SortedLookup TreeFormat

inductive ReadError where
  | unknownBlob (what : String)
  | backup (error : BackupError)
  | decryption (what : String)
  | corrupt (what : String)

def ReadError.message : ReadError → String
  | .unknownBlob what => s!"blob {what} is not in the index"
  | .backup error => error.message
  | .decryption what => s!"decryption failed for {what}: wrong key, or the data is corrupt or has been tampered with"
  | .corrupt what => s!"{what} does not match its ID; the repository is corrupt"

def ReadError.ofPack : PackError → ReadError
  | .backup error => .backup error
  | .decryption what => .decryption what
  | .corrupt what => .corrupt what

/-- `fetchError` is what the store says of a range that is not there, and `cache` has what the local
cache holds under the ids of trees. -/
structure Repository where
  keys : Keys
  zstd : Zstd
  serde : TreeSerde
  packs : IdMap (List StoredByte)
  indexes : IdMap (Except BackupError (List PackEntries))
  snapshots : IdMap (Except BackupError StoredSnapshot)
  index : Index
  opened : Index.read indexes = .ok index
  fetchError : ObjectId → String
  cache : IdMap (List UInt8)

namespace Repository

variable (repo : Repository)

/-- `get_range` of a pack -/
def getRange (packId : ObjectId) (offset len : ℕ) : Metered ReadError (List StoredByte) :=
  match repo.packs[packId]? with
  | none => .fail (.backup (.mirror (repo.fetchError packId)))
  | some data =>
      if offset + len ≤ data.length then pure ((data.drop offset).take len)
      else .fail (.backup (.mirror (repo.fetchError packId)))

def loadBlob (id : ObjectId) : Metered ReadError (List UInt8) :=
  match repo.index.lookup id with
  | none => .fail (.unknownBlob (short id))
  | some location => do
      let sealedBytes ← repo.getRange location.packId location.entry.offset location.entry.length
      (PackFormat.decodeBlob repo.keys repo.zstd location.entry sealedBytes).mapError .ofPack

def treeBytes (id : ObjectId) : Metered ReadError (List UInt8) :=
  match repo.cache[id]? with
  | none => repo.loadBlob id
  | some cached => if repo.keys.blobId cached = id then pure cached else repo.loadBlob id

def loadTree (id : ObjectId) : Metered ReadError Tree := do
  let plaintext ← repo.treeBytes id
  match Tree.decode repo.serde plaintext with
  | .error e => .fail (.backup e)
  | .ok tree => pure tree

/-- `list_snapshots`, newest first. -/
def listSnapshots : Except BackupError (List (ObjectId × StoredSnapshot)) :=
  (readObjects repo.snapshots).map fun loaded =>
    loaded.insertionSort fun a b => b.2.time < a.2.time ∨ a.2.time = b.2.time ∧ a.1 ≤ b.1

end Repository

structure Options where
  readData : Bool
  snapshots : Option (List (ObjectId × StoredSnapshot))

structure Report where
  snapshotsChecked : ℕ
  treesChecked : ℕ
  blobsReferenced : ℕ
  packsReferenced : ℕ
  packsInStorage : ℕ
  bytesRead : ℕ
  orphanPacks : List ObjectId
  problems : List String

def Report.ok (report : Report) : Bool := report.problems.isEmpty

structure Checking where
  seen : List ObjectId
  blobsReferenced : ℕ
  problems : List String

def Checking.problem (c : Checking) (text : String) : Checking :=
  { c with problems := c.problems ++ [text] }

structure FileCheck where
  total : ℕ
  complete : Bool
  checking : Checking

section Trees

variable (repo : Repository)

def checkChunk (child : String) (f : FileCheck) (chunk : ObjectId) : FileCheck :=
  let checking := { f.checking with blobsReferenced := f.checking.blobsReferenced + 1 }
  match repo.index.lookup chunk with
  | some location =>
      { f with total := f.total + location.entry.plainLength, checking := checking }
  | none =>
      { f with
        complete := false
        checking := checking.problem
          s!"file {child} references chunk {short chunk}, which no index lists" }

def checkFile (child : String) (node : TreeFormat.Node) (c : Checking) : Checking :=
  let f := node.content.foldl (checkChunk repo child) ⟨0, true, c⟩
  if f.complete ∧ f.total ≠ node.size then
    f.checking.problem
      s!"file {child} records {node.size} bytes but its chunks hold {f.total}"
  else f.checking

/-- The entries of a directory, `descend` being the walk beneath one of them. A directory without a
subtree is a panic. -/
def checkNodes (descend : ObjectId → String → Checking → Option Checking) (path : String) :
    List TreeFormat.Node → Checking → Option Checking
  | [], c => some c
  | node :: rest, c =>
      let child := path ++ node.name
      match node.nodeType with
      | .dir =>
          match node.subtree with
          | none => none
          | some subtree =>
              (descend subtree (child ++ "/") c).bind (checkNodes descend path rest)
      | .file => checkNodes descend path rest (checkFile repo child node c)
      | .symlink => checkNodes descend path rest c

def checkTree : ℕ → ObjectId → String → Checking → Option Checking
  | 0, _, _, _ => none
  | fuel + 1, treeId, path, c =>
      if treeId ∈ c.seen then some c
      else
        let c := { c with seen := c.seen ++ [treeId] }
        match (repo.loadTree treeId).result with
        | .error .panicked => none
        | .error (.error e) =>
            some (c.problem s!"cannot read the directory tree for {path}: {e.message}")
        | .ok tree => checkNodes repo (checkTree fuel) path tree.nodes c

def fuel : ℕ := repo.index.blobs.size + repo.cache.size + 1

def checkSnapshots (snapshots : List (ObjectId × StoredSnapshot)) (c : Checking) : Option Checking :=
  snapshots.foldlM (fun c snapshot => checkTree repo (fuel repo) snapshot.2.tree "/" c) c

end Trees

section Packs

variable (repo : Repository)

def indexed (packId : ObjectId) : List Entry :=
  (repo.index.locations.filter fun l => l.packId = packId).map Location.entry

def mismatched (packId : ObjectId) (header : List Entry) : List String :=
  (header.filter fun e => (indexed repo packId).any fun want => want.id = e.id && want ≠ e).map
    fun e => s!"pack {short packId}: the index entry for blob {short e.id} doesn't match the pack header"

def notContained (packId : ObjectId) (header : List Entry) : List String :=
  ((indexed repo packId).filter fun want => want.id ∉ header.map Entry.id).map fun want =>
    s!"pack {short packId}: the index lists blob {short want.id}, which the pack doesn't contain"

def decodeAll (packId : ObjectId) (data : List StoredByte) : List Entry → Option (List String)
  | [] => some []
  | e :: rest =>
      let read : Metered ReadError (List UInt8) := do
        let sealedBytes ← Metered.slice data e.offset e.end
        (PackFormat.decodeBlob repo.keys repo.zstd e sealedBytes).mapError .ofPack
      match read.result with
      | .error .panicked => none
      | .error (.error error) =>
          (decodeAll packId data rest).map (s!"pack {short packId}: {error.message}" :: ·)
      | .ok _ => decodeAll packId data rest

def verifyPack (packId : ObjectId) (data : List StoredByte) : Option (List String) :=
  match (parseHeader repo.keys packId data).result with
  | .error .panicked => none
  | .error (.error e) =>
      some [s!"pack {short packId}: cannot read its header: {(ReadError.ofPack e).message}"]
  | .ok header =>
      (decodeAll repo packId data header).map fun broken =>
        mismatched repo packId header ++ notContained repo packId header ++ broken

def readAllPacks : Option (List String) :=
  (repo.packs.toList.mapM fun (pack : ObjectId × List StoredByte) =>
    verifyPack repo pack.1 pack.2).map fun problems => sortByKey id problems.flatten

def missingPacks : List String :=
  (repo.index.packIds.filter fun id => !repo.packs.contains id).map fun id =>
    s!"pack {short id} is listed in an index but missing from storage"

def overlong (l : Location) : Option ℕ :=
  (repo.packs[l.packId]?.map List.length).filter fun size => size < l.entry.end

def overlongEntries : List String :=
  repo.index.locations.filterMap fun l => (overlong repo l).map fun size =>
    s!"chunk {short l.entry.id} claims bytes up to {l.entry.end} of pack {short l.packId}, which is only {size} bytes"

end Packs

def verify (repo : Repository) (options : Options) : Option (Except BackupError Report) :=
  match options.snapshots.elim repo.listSnapshots .ok with
  | .error e => some (.error e)
  | .ok snapshots =>
      (checkSnapshots repo snapshots ⟨[], 0, missingPacks repo ++ overlongEntries repo⟩).bind fun c =>
        (if options.readData then readAllPacks repo else some []).map fun broken =>
          .ok {
            snapshotsChecked := snapshots.length
            treesChecked := c.seen.length
            blobsReferenced := c.blobsReferenced
            packsReferenced := repo.index.packIds.length
            packsInStorage := repo.packs.size
            bytesRead := if options.readData then
              (repo.packs.toList.map fun pack => pack.2.length).sum else 0
            orphanPacks := repo.packs.keys.filter fun id => id ∉ repo.index.packIds
            problems := c.problems ++ broken }

end FileMirror.Verify
