import FileMirror.Packs
import Mathlib.Data.List.Dedup
import Mathlib.Data.List.Sort

set_option autoImplicit false

/-!
# Pruning a backup repository

`prune.rs`, under the exclusive lock: what the remaining snapshots reach is marked, the packs are
sorted by what is needed of them, and what is not needed is deleted behind a rewritten index. The
store's operations succeed; what reading an object comes to is part of its state. Sealing is a
parameter, by which a blob that opens has the plaintext that its id names.
-/

namespace FileMirror

inductive TreeNode where
  | dir (subtree : ObjectId)
  | file (content : List ObjectId)
  | symlink

/-- `opens` is all of `decode_blob` after the check of the length, `treeOf` is `Tree::decode` of the
plaintext that an id names, and `fetchError` is what the store says of a range that is not there. -/
structure BlobCodec where
  opens : BlobType → Compression → ObjectId → ℕ → List UInt8 → Except BackupError Unit
  treeOf : ObjectId → Except BackupError (List TreeNode)
  sealedHeader : ObjectId → List Entry → List UInt8
  fetchError : ObjectId → String

/-- `modified` is in seconds. -/
structure StoredPack where
  data : List UInt8
  modified : Option ℕ
  deriving DecidableEq

structure StoredSnapshot where
  time : ℤ
  tree : ObjectId

structure PruneStore where
  packs : IdMap StoredPack
  indexes : IdMap (Except BackupError (List PackEntries))
  snapshots : IdMap (Except BackupError StoredSnapshot)

def Entry.end (e : Entry) : ℕ := e.offset + e.length

def BlobType.asStr : BlobType → String
  | .data => "data"
  | .tree => "tree"

def Entry.sealedIn (e : Entry) (data : List UInt8) : Option (List UInt8) :=
  if e.end ≤ data.length then some ((data.drop e.offset).take e.length) else none

def decodeBlob (codec : BlobCodec) (e : Entry) (sealedBytes : List UInt8) : Except BackupError Unit :=
  if sealedBytes.length ≠ e.length then
    .error (.format s!"{e.blobType.asStr} blob {short e.id}: {sealedBytes.length} bytes, but its entry says {e.length}")
  else codec.opens e.blobType e.compression e.id e.plainLength sealedBytes

def loadBlob (codec : BlobCodec) (packs : IdMap StoredPack) (l : Location) :
    Except BackupError Unit :=
  match packs[l.packId]?.bind fun pack => l.entry.sealedIn pack.data with
  | none => .error (.mirror (codec.fetchError l.packId))
  | some sealedBytes => decodeBlob codec l.entry sealedBytes

def readObjects {β : Type} (objects : IdMap (Except BackupError β)) :
    Except BackupError (List (ObjectId × β)) :=
  objects.toList.mapM fun (object : ObjectId × Except BackupError β) =>
    object.2.map (Prod.mk object.1)

/-- `index::load` -/
def Index.read (objects : IdMap (Except BackupError (List PackEntries))) :
    Except BackupError Index :=
  (readObjects objects).map fun loaded => loaded.foldl addObject new

def Index.locations (ix : Index) : List Location := ix.blobs.toList.map Prod.snd

/-- `snapshot::list`, newest first. -/
def listSnapshots (store : PruneStore) : Except BackupError (List (ObjectId × StoredSnapshot)) :=
  (readObjects store.snapshots).map fun loaded =>
    loaded.insertionSort fun a b => b.2.time < a.2.time ∨ a.2.time = b.2.time ∧ a.1 ≤ b.1

namespace Prune

def orphanGrace : ℕ := 7 * 24 * 3600

structure Report where
  dryRun : Bool
  snapshotsForgotten : ℕ
  packsDeleted : ℕ
  bytesFreed : ℕ
  packsRepacked : ℕ
  bytesRepacked : ℕ
  packsPartlyUsed : ℕ
  bytesUnusedInKeptPacks : ℕ
  indexObjectsReplaced : ℕ
  orphansKept : ℕ
  deriving DecidableEq

section Mark

variable (codec : BlobCodec) (packs : IdMap StoredPack) (ix : Index)

/-- `HashSet::insert`; the ids are distinct. -/
def insert (referenced : List ObjectId) (id : ObjectId) : List ObjectId :=
  if id ∈ referenced then referenced else referenced ++ [id]

/-- With one more of `fuel` than trees are left to walk, the fuel does not run out. -/
def mark : ℕ → List ObjectId → ObjectId → Except BackupError (List ObjectId)
  | 0, referenced, _ => .ok referenced
  | fuel + 1, referenced, tree =>
      if tree ∈ referenced then .ok referenced
      else
        match ix.lookup tree with
        | none => .error (.incomplete s!"tree {short tree} is in no index")
        | some location => do
            loadBlob codec packs location
            let nodes ← codec.treeOf tree
            nodes.foldlM (fun referenced node =>
              match node with
              | .dir subtree => mark fuel referenced subtree
              | .file content => .ok (content.foldl insert referenced)
              | .symlink => .ok referenced) (referenced ++ [tree])

def markAll (remaining : List (ObjectId × StoredSnapshot)) : Except BackupError (List ObjectId) :=
  remaining.foldlM (fun referenced s => mark codec packs ix (ix.blobs.size + 1) referenced s.2.tree) []

end Mark

inductive Fate where
  | orphan
  | doomed
  | repack (needed : List Entry)
  | keep (unused : ℕ) (entries : List Entry)

def StoredPack.recent (now : ℕ) (pack : StoredPack) : Bool :=
  pack.modified.all fun modified => decide (now - modified < orphanGrace)

/-- A share of one fifth makes `REPACK_THRESHOLD`. -/
def fate (referenced : List ObjectId) (locations : List Location) (now : ℕ) (packId : ObjectId)
    (pack : StoredPack) : Fate :=
  let entries := (locations.filter fun l => l.packId = packId).map Location.entry
  let needed := entries.filter fun e => e.id ∈ referenced
  let unneeded := entries.filter fun e => e.id ∉ referenced
  let unused := (unneeded.map Entry.length).sum
  if entries = [] then if StoredPack.recent now pack then .orphan else .doomed
  else if needed = [] then .doomed
  else if pack.data.length ≤ 5 * unused then .repack needed
  else .keep unused (needed ++ unneeded)

structure Sorted where
  packs : List (ObjectId × StoredPack × Fate)

namespace Sorted

def doomed (s : Sorted) : List ObjectId :=
  s.packs.filterMap fun p => match p.2.2 with
    | .doomed => some p.1
    | _ => none

def repack (s : Sorted) : List (ObjectId × StoredPack × List Entry) :=
  s.packs.filterMap fun p => match p.2.2 with
    | .repack needed => some (p.1, p.2.1, needed)
    | _ => none

def kept (s : Sorted) : List PackEntries :=
  s.packs.filterMap fun p => match p.2.2 with
    | .keep _ entries => some ⟨p.1, entries⟩
    | _ => none

def needed (s : Sorted) : ℕ := (s.repack.map fun p => (p.2.2.map Entry.length).sum).sum

def freed (s : Sorted) : ℕ :=
  (s.packs.map fun p => match p.2.2 with
    | .doomed => p.2.1.data.length
    | .repack needed => p.2.1.data.length - (needed.map Entry.length).sum
    | _ => 0).sum

def unused (s : Sorted) : List ℕ :=
  s.packs.filterMap fun p => match p.2.2 with
    | .keep unused _ => if 0 < unused then some unused else none
    | _ => none

def orphans (s : Sorted) : ℕ :=
  s.packs.countP fun p => match p.2.2 with
    | .orphan => true
    | _ => false

def report (s : Sorted) (dryRun : Bool) (forget : List ObjectId) : Report where
  dryRun := dryRun
  snapshotsForgotten := forget.length
  packsDeleted := s.doomed.length + s.repack.length
  bytesFreed := s.freed
  packsRepacked := s.repack.length
  bytesRepacked := s.needed
  packsPartlyUsed := s.unused.length
  bytesUnusedInKeptPacks := s.unused.sum
  indexObjectsReplaced := 0
  orphansKept := s.orphans

end Sorted

inductive Effect where
  | deleteSnapshot (id : ObjectId)
  | putPack (id : ObjectId) (data : List UInt8)
  | putIndex (id : ObjectId) (packs : List PackEntries)
  | deleteIndex (id : ObjectId)
  | deletePack (id : ObjectId)

def Effect.apply (now : ℕ) (store : PruneStore) : Effect → PruneStore
  | .deleteSnapshot id => { store with snapshots := store.snapshots.erase id }
  | .putPack id data => { store with packs := store.packs.insert id ⟨data, some now⟩ }
  | .putIndex id packs => { store with indexes := store.indexes.insert id (.ok packs) }
  | .deleteIndex id => { store with indexes := store.indexes.erase id }
  | .deletePack id => { store with packs := store.packs.erase id }

def Effect.deletes : Effect → Bool
  | .putPack _ _ | .putIndex _ _ => false
  | _ => true

/-- A pack that is being put together; `seen` has the ids of the entries. -/
structure PackWriter where
  id : ObjectId
  buf : List UInt8
  entries : List Entry

namespace PackWriter

def new (id : ObjectId) : PackWriter := ⟨id, [], []⟩

/-- `SealedBlob::from_entry` and `Writer::push`; what an entry cuts out has a length of 32 bits. -/
def push (w : PackWriter) (e : Entry) (sealedBytes : List UInt8) : Except BackupError PackWriter :=
  if e.id ∈ w.entries.map Entry.id then .ok w
  else if w.buf.length + sealedBytes.length < 2 ^ 32 then
    .ok { w with
      buf := w.buf ++ sealedBytes
      entries := w.entries ++ [{ e with offset := w.buf.length, length := sealedBytes.length }] }
  else .error (.invalid "pack has grown beyond the addressable size")

def le32 (n : ℕ) : List UInt8 := (List.range 4).map fun i => UInt8.ofNat (n / 256 ^ i)

def encodeFooter (headerLen : ℕ) : List UInt8 :=
  le32 headerLen ++ ("RFMB".toList.map fun c => UInt8.ofNat c.toNat) ++ le32 1

def finish (codec : BlobCodec) (w : PackWriter) : Except BackupError (List UInt8 × PackEntries) :=
  let header := codec.sealedHeader w.id w.entries
  if w.entries = [] then .error (.invalid "refusing to finish an empty pack")
  else if header.length ≤ maxHeaderSize then
    .ok (w.buf ++ header ++ encodeFooter header.length, ⟨w.id, w.entries⟩)
  else .error (.invalid "pack header exceeds the size limit")

end PackWriter

section Sweep

variable (codec : BlobCodec) (draw : ℕ → ObjectId)

/-- The loop of `copy_needed` from a writer on; `next` ids have been drawn. -/
def copyEntries (packId : ObjectId) (data : List UInt8) :
    List Entry → PackWriter → ℕ → List Effect × Except BackupError (List PackEntries × ℕ)
  | [], w, next =>
      if w.entries = [] then ([], .ok ([], next))
      else
        match w.finish codec with
        | .error e => ([], .error e)
        | .ok (packed, listing) => ([.putPack listing.packId packed], .ok ([listing], next))
  | e :: rest, w, next =>
      match e.sealedIn data with
      | none => ([], .error (.format s!"pack {short packId} is shorter than its index says"))
      | some sealedBytes =>
          match decodeBlob codec e sealedBytes, w.push e sealedBytes with
          | .error error, _ | .ok _, .error error => ([], .error error)
          | .ok _, .ok w =>
              if targetSize ≤ w.buf.length then
                match w.finish codec with
                | .error error => ([], .error error)
                | .ok (packed, listing) =>
                    let (effects, result) :=
                      copyEntries packId data rest (.new (draw next)) (next + 1)
                    (.putPack listing.packId packed :: effects,
                      result.map fun (listings, next) => (listing :: listings, next))
              else copyEntries packId data rest w next

def copyNeeded (packId : ObjectId) (pack : StoredPack) (needed : List Entry) (next : ℕ) :
    List Effect × Except BackupError (List PackEntries × ℕ) :=
  copyEntries codec draw packId pack.data needed (.new (draw next)) (next + 1)

def copyAll : List (ObjectId × StoredPack × List Entry) → ℕ →
    List Effect × Except BackupError (List PackEntries × ℕ)
  | [], next => ([], .ok ([], next))
  | (packId, pack, needed) :: rest, next =>
      match copyNeeded codec draw packId pack needed next with
      | (effects, .error e) => (effects, .error e)
      | (effects, .ok (listings, next)) =>
          let (others, result) := copyAll rest next
          (effects ++ others, result.map fun (more, next) => (listings ++ more, next))

end Sweep

structure Plan where
  index : Index
  sorted : Sorted

/-- `locations` gives the hash map's values in the order that it has them. -/
structure Scan where
  locations : List Location → List Location
  perm : ∀ l, (locations l).Perm l

section Run

variable (codec : BlobCodec) (scan : Scan) (draw : ℕ → ObjectId) (now : ℕ)

def sortPacks (store : PruneStore) (index : Index) (referenced : List ObjectId) : Sorted :=
  ⟨store.packs.toList.map fun (p : ObjectId × StoredPack) =>
    (p.1, p.2, fate referenced (scan.locations index.locations) now p.1 p.2)⟩

def plan (store : PruneStore) (forget : List ObjectId) : Except BackupError Plan := do
  let index ← Index.read store.indexes
  let snapshots ← listSnapshots store
  match forget.find? fun id => id ∉ snapshots.map Prod.fst with
  | some id => .error (.snapshotNotFound s!"no snapshot {short id}")
  | none => do
      let remaining := snapshots.filter fun s => s.1 ∉ forget
      let referenced ← markAll codec store.packs index remaining
      match referenced.find? fun id => ¬ index.has id with
      | some missing => .error (.incomplete s!"a remaining snapshot references blob {short missing}, which no index lists; run `rfm backup verify` before pruning")
      | none => .ok ⟨index, sortPacks scan now store index referenced⟩

def sweep (plan : Plan) (forget : List ObjectId) : List Effect × Except BackupError Report :=
  let report := plan.sorted.report false forget
  let forgets := forget.map Effect.deleteSnapshot
  match copyAll codec draw plan.sorted.repack 0 with
  | (copies, .error e) => (forgets ++ copies, .error e)
  | (copies, .ok (listings, next)) =>
      let kept := plan.sorted.kept ++ listings
      let doomed := plan.sorted.doomed ++ plan.sorted.repack.map Prod.fst
      if doomed = [] then (forgets ++ copies, .ok report)
      else
        let index := if kept = [] then [] else [Effect.putIndex (draw next) kept]
        (forgets ++ copies ++ index ++ plan.index.sources.map Effect.deleteIndex ++
            doomed.map Effect.deletePack,
          .ok { report with indexObjectsReplaced := plan.index.sources.length })

def pruneLocked (store : PruneStore) (forget : List ObjectId) (dryRun : Bool) :
    List Effect × Except BackupError Report :=
  let forget := forget.dedup
  match plan codec scan now store forget with
  | .error e => ([], .error e)
  | .ok plan =>
      if dryRun then ([], .ok (plan.sorted.report true forget)) else sweep codec draw plan forget

end Run

end Prune

end FileMirror
