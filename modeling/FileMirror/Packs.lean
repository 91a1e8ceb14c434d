import FileMirror.Manifest
import FileMirror.Streaming

set_option autoImplicit false

namespace FileMirror

abbrev ObjectId := Fin (2 ^ 256)

abbrev IdMap (β : Type) := Std.ExtTreeMap ObjectId β

namespace IdMap

variable {β : Type} {m : IdMap β} {k l : ObjectId} {v : β}

theorem getElem?_insert : (m.insert k v)[l]? = if k = l then some v else m[l]? := by
  simp only [Std.ExtTreeMap.getElem?_insert, Std.compare_eq_iff_eq]

theorem mem_of_getElem? (h : m[k]? = some v) : k ∈ m := by
  rw [Std.ExtTreeMap.mem_iff_isSome_getElem?, h]
  rfl

theorem insert_keeps {w : β} (hk : k ∉ m) (h : m[l]? = some w) : (m.insert k v)[l]? = some w := by
  have hne : k ≠ l := fun heq => hk (heq ▸ mem_of_getElem? h)
  rw [getElem?_insert, if_neg hne, h]

end IdMap

def short (id : ObjectId) : String :=
  String.ofList ((List.range 8).map fun i => Nat.digitChar (id.val / 16 ^ (63 - i) % 16))

inductive BackupError where
  | mirror (message : String)
  | format (what : String)
  | runFailed (message : String)
  | invalid (message : String)
  | io (message : String)
  | incomplete (message : String)
  | snapshotNotFound (message : String)
  deriving DecidableEq

def BackupError.message : BackupError → String
  | .mirror message => message
  | .format what => s!"malformed {what}"
  | .runFailed message => s!"refusing to continue because an earlier write failed: {message}"
  | .invalid message => message
  | .io message => s!"reading input: {message}"
  | .incomplete message => s!"the repository is incomplete: {message}"
  | .snapshotNotFound message => message

inductive BlobType where
  | data
  | tree
  deriving DecidableEq

inductive Compression where
  | none
  | zstd
  deriving DecidableEq

structure Entry where
  blobType : BlobType
  compression : Compression
  id : ObjectId
  offset : ℕ
  length : ℕ
  plainLength : ℕ
  deriving DecidableEq

def targetSize : ℕ := 16 * 1024 * 1024

def footerSize : ℕ := 12

def entrySize : ℕ := 46

def maxHeaderSize : ℕ := 64 * 1024 * 1024

/-- What `save_blob` is given: the length of the plaintext, its keyed id, and the length and the
algorithm that `compress` comes to. -/
structure Plaintext where
  blobType : BlobType
  id : ObjectId
  length : ℕ
  compressed : Except String (ℕ × Compression)

structure SealedBlob where
  blobType : BlobType
  compression : Compression
  id : ObjectId
  plainLength : ℕ
  stored : ℕ

namespace SealedBlob

def sealedLen (b : SealedBlob) : ℕ := ciphertextLen b.stored

def «seal» (p : Plaintext) : Except BackupError SealedBlob :=
  if 2 ^ 32 ≤ p.length then .error (.invalid s!"blob of {p.length} bytes is too large")
  else
    match p.compressed with
    | .error message => .error (.io message)
    | .ok (stored, compression) => .ok ⟨p.blobType, compression, p.id, p.length, stored⟩

theorem seal_id {p : Plaintext} {b : SealedBlob} (h : «seal» p = .ok b) : b.id = p.id := by
  unfold «seal» at h
  split at h
  · cases h
  · split at h
    · cases h
    · cases h
      rfl

theorem le_sealedLen (b : SealedBlob) : 35 ≤ b.sealedLen := by
  have hframes : 1 ≤ max ((b.stored + chunkSize - 1) / chunkSize) 1 := le_max_right _ _
  have htags := Nat.mul_le_mul_right tagSize hframes
  unfold sealedLen ciphertextLen
  simp only [nonceSize, tagSize] at htags ⊢
  omega

end SealedBlob

structure Pack where
  id : ObjectId
  entries : List Entry
  size : ℕ
  deriving DecidableEq

def Pack.ids (p : Pack) : List ObjectId := p.entries.map Entry.id

/-- `seen` has the ids of the entries. -/
structure Writer where
  id : ObjectId
  size : ℕ
  entries : List Entry
  deriving DecidableEq

namespace Writer

def new (id : ObjectId) : Writer := ⟨id, 0, []⟩

def ids (w : Writer) : List ObjectId := w.entries.map Entry.id

def has (w : Writer) (id : ObjectId) : Bool := decide (id ∈ w.ids)

def push (w : Writer) (b : SealedBlob) : Except BackupError (Bool × Writer) :=
  if w.has b.id then .ok (false, w)
  else if w.size < 2 ^ 32 ∧ w.size + b.sealedLen % 2 ^ 32 < 2 ^ 32 then
    .ok (true, { w with
      size := w.size + b.sealedLen
      entries := w.entries ++
        [⟨b.blobType, b.compression, b.id, w.size, b.sealedLen % 2 ^ 32, b.plainLength⟩] })
  else .error (.invalid "pack has grown beyond the addressable size")

/-- Four bytes for the count and `entrySize` for each entry make the header. -/
def finish (w : Writer) : Except BackupError Pack :=
  let headerLen := ciphertextLen (4 + w.entries.length * entrySize)
  if w.entries = [] then .error (.invalid "refusing to finish an empty pack")
  else if headerLen ≤ maxHeaderSize then .ok ⟨w.id, w.entries, w.size + headerLen + footerSize⟩
  else .error (.invalid "pack header exceeds the size limit")

theorem has_iff {w : Writer} {id : ObjectId} : w.has id = true ↔ id ∈ w.ids := by
  rw [has, decide_eq_true_iff]

theorem push_new {w w' : Writer} {b : SealedBlob} {added : Bool}
    (hw : b.id ∉ w.ids) (h : w.push b = .ok (added, w')) :
    added = true ∧ w'.ids = w.ids ++ [b.id] ∧ w'.size = w.size + b.sealedLen ∧
      w'.entries.length = w.entries.length + 1 := by
  have hhas : ¬ w.has b.id = true := fun hb => hw (has_iff.mp hb)
  unfold push at h
  rw [if_neg hhas] at h
  split_ifs at h
  cases h
  refine ⟨rfl, ?_, rfl, ?_⟩
  · simp only [ids, List.map_append, List.map_cons, List.map_nil]
  · rw [List.length_append, List.length_singleton]

theorem finish_ok {w : Writer} (hne : w.entries ≠ [])
    (hlen : 35 * w.entries.length ≤ targetSize + 35) :
    ∃ p, w.finish = .ok p ∧ p.id = w.id ∧ p.entries = w.entries := by
  have hheader : ciphertextLen (4 + w.entries.length * entrySize) ≤ maxHeaderSize := by
    simp only [ciphertextLen, nonceSize, chunkSize, tagSize, entrySize, maxHeaderSize,
      targetSize] at hlen ⊢
    omega
  have hfinish : w.finish = .ok ⟨w.id, w.entries,
      w.size + ciphertextLen (4 + w.entries.length * entrySize) + footerSize⟩ := by
    unfold finish
    rw [if_neg hne, if_pos hheader]
  exact ⟨_, hfinish, rfl, rfl⟩

end Writer

structure Location where
  packId : ObjectId
  entry : Entry
  deriving DecidableEq

structure PackEntries where
  packId : ObjectId
  entries : List Entry
  deriving DecidableEq

def PackEntries.ids (p : PackEntries) : List ObjectId := p.entries.map Entry.id

def Pack.listing (p : Pack) : PackEntries := ⟨p.id, p.entries⟩

structure Index where
  blobs : IdMap Location
  packs : IdMap ℕ
  sources : List ObjectId

namespace Index

def new : Index := ⟨∅, ∅, []⟩

def addPack (ix : Index) (p : PackEntries) : Index :=
  { ix with
    packs := ix.packs.insert p.packId (ix.packs[p.packId]?.getD 0 + p.entries.length)
    blobs := p.entries.foldl (fun blobs e => blobs.insertIfNew e.id ⟨p.packId, e⟩) ix.blobs }

def lookup (ix : Index) (id : ObjectId) : Option Location := ix.blobs[id]?

def has (ix : Index) (id : ObjectId) : Bool := ix.blobs.contains id

def packIds (ix : Index) : List ObjectId := ix.packs.keys

def addObject (ix : Index) (object : ObjectId × List PackEntries) : Index :=
  let added := object.2.foldl addPack ix
  { added with sources := added.sources ++ [object.1] }

def load (objects : IdMap (List PackEntries)) : Index := objects.toList.foldl addObject new

theorem has_addPack {ix : Index} {p : PackEntries} {id : ObjectId} :
    (ix.addPack p).has id = true ↔ ix.has id = true ∨ id ∈ p.ids := by
  have hfold : ∀ (entries : List Entry) (blobs : IdMap Location),
      id ∈ entries.foldl (fun blobs e => blobs.insertIfNew e.id ⟨p.packId, e⟩) blobs ↔
        id ∈ blobs ∨ id ∈ entries.map Entry.id := by
    intro entries
    induction entries with
    | nil => intro blobs; simp
    | cons e entries ih =>
        intro blobs
        rw [List.foldl_cons, ih, Std.ExtTreeMap.mem_insertIfNew, Std.compare_eq_iff_eq,
          List.map_cons, List.mem_cons, eq_comm (a := e.id)]
        constructor
        · rintro ((h | h) | h)
          · exact .inr (.inl h)
          · exact .inl h
          · exact .inr (.inr h)
        · rintro (h | h | h)
          · exact .inl (.inr h)
          · exact .inl (.inl h)
          · exact .inr h
  exact hfold p.entries ix.blobs

theorem has_addPacks {packs : List PackEntries} {ix : Index} {id : ObjectId} :
    (packs.foldl addPack ix).has id = true ↔ ix.has id = true ∨ ∃ p ∈ packs, id ∈ p.ids := by
  induction packs generalizing ix with
  | nil => simp
  | cons p packs ih =>
      rw [List.foldl_cons, ih, has_addPack, or_assoc, List.exists_mem_cons_iff]

theorem has_new {id : ObjectId} : ¬ Index.new.has id = true := by
  simp [new, has]

theorem has_load {objects : IdMap (List PackEntries)} {id : ObjectId}
    (h : (load objects).has id = true) :
    ∃ (key : ObjectId) (packs : List PackEntries), objects[key]? = some packs ∧
      ∃ p ∈ packs, id ∈ p.ids := by
  have hfold : ∀ (l : List (ObjectId × List PackEntries)) (ix : Index),
      (l.foldl addObject ix).has id = true →
        ix.has id = true ∨ ∃ object ∈ l, ∃ p ∈ object.2, id ∈ p.ids := by
    intro l
    induction l with
    | nil => exact fun ix hix => .inl hix
    | cons object l ih =>
        intro ix hix
        obtain hobject | ⟨other, hother, hp⟩ := ih (ix.addObject object) hix
        · obtain hix | hp := has_addPacks.mp hobject
          · exact .inl hix
          · exact .inr ⟨object, List.mem_cons_self .., hp⟩
        · exact .inr ⟨other, List.mem_cons_of_mem _ hother, hp⟩
  obtain hnew | ⟨object, hobject, hp⟩ := hfold _ _ h
  · exact absurd hnew has_new
  · exact ⟨object.1, object.2, Std.ExtTreeMap.mem_toList_iff_getElem?_eq_some.mp hobject, hp⟩

end Index

end FileMirror
