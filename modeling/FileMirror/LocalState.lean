import FileMirror.Manifest

set_option autoImplicit false

namespace FileMirror

/-- `i64::MAX`, at which `i64::try_from(_).unwrap_or(i64::MAX)` clamps. -/
def i64Max : ℕ := 2 ^ 63 - 1

inductive Residency where
  | «local»
  | evicted
  deriving DecidableEq

structure FileRecord where
  path : String
  size : ℕ
  mtimeNs : ℤ
  contentHash : ContentHash
  lastSyncedHash : Option ContentHash
  residency : Residency
  syncedAt : Option ℤ
  lastHydratedAt : Option ℤ
  deriving DecidableEq

def FileRecord.isEvicted (r : FileRecord) : Bool := r.residency = .evicted

def FileRecord.synced (path : String) (size : ℕ) (hash : ContentHash) : FileRecord :=
  { path, size, mtimeNs := 0, contentHash := hash, lastSyncedHash := some hash,
    residency := .local, syncedAt := none, lastHydratedAt := none }

abbrev Baseline := StringMap FileRecord

structure CompletedUploadPart where
  partNumber : ℤ
  etag : String
  checksumSha256 : String
  deriving DecidableEq

structure PendingUpload where
  path : String
  uploadId : String
  partSize : ℕ
  contentHash : ContentHash
  nonce : List UInt8
  completedParts : List CompletedUploadPart
  deriving DecidableEq

structure LocalEntry where
  path : String
  size : ℕ
  mtimeNs : ℤ
  hash : ContentHash
  deriving DecidableEq

structure DeviceState where
  deviceId : String
  deviceName : String
  files : Baseline
  uploads : StringMap PendingUpload
  lamport : ℕ
  manifestGeneration : ℕ

/-- `HashCache::cached` of a baseline. -/
def Baseline.cached (b : Baseline) (path : String) (size : ℕ) (mtimeNs : ℤ) :
    Option ContentHash :=
  match b[path]? with
  | none => none
  | some record =>
      if record.size = size ∧ record.mtimeNs = mtimeNs then some record.contentHash else none

/-- `last_synced_hash` of a path: what both sides last agreed on. -/
def Baseline.lastSynced (b : Baseline) (path : String) : Option ContentHash :=
  b[path]?.bind FileRecord.lastSyncedHash

namespace DeviceState

def confirmSync (s : DeviceState) (now : ℤ) (path : String) (size : ℕ) (mtimeNs : ℤ)
    (contentHash : ContentHash) : DeviceState :=
  let record : FileRecord :=
    { path, size := min size i64Max, mtimeNs, contentHash, lastSyncedHash := some contentHash
      residency := .local, syncedAt := some now
      lastHydratedAt := s.files[path]?.bind FileRecord.lastHydratedAt }
  { s with files := s.files.insert path record }

def confirmPlaceholder (s : DeviceState) (now : ℤ) (path : String) (size : ℕ)
    (contentHash : ContentHash) : DeviceState :=
  let record : FileRecord :=
    { path, size := min size i64Max, mtimeNs := s.files[path]?.elim 0 FileRecord.mtimeNs
      contentHash, lastSyncedHash := some contentHash, residency := .evicted
      syncedAt := some now
      lastHydratedAt := s.files[path]?.bind FileRecord.lastHydratedAt }
  { s with files := s.files.insert path record }

/-- `UPDATE files SET … WHERE path = ?1`: does nothing when there is no row. -/
def updateRow (s : DeviceState) (path : String) (f : FileRecord → FileRecord) : DeviceState :=
  match s.files[path]? with
  | none => s
  | some record => { s with files := s.files.insert path (f record) }

def markEvicted (s : DeviceState) (path : String) : DeviceState :=
  s.updateRow path fun record => { record with residency := .evicted }

def markLocal (s : DeviceState) (path : String) : DeviceState :=
  s.updateRow path fun record => { record with residency := .local }

def recordHydrated (s : DeviceState) (now : ℤ) (path : String) : DeviceState :=
  s.updateRow path fun record => { record with lastHydratedAt := some now }

def remove (s : DeviceState) (path : String) : DeviceState :=
  { s with files := s.files.erase path }

def recordUploadStart (s : DeviceState) (path uploadId : String) (partSize : ℕ)
    (contentHash : ContentHash) (nonce : List UInt8) : DeviceState :=
  let row : PendingUpload :=
    { path, uploadId, partSize := min partSize i64Max, contentHash, nonce
      completedParts := s.uploads[path]?.elim [] PendingUpload.completedParts }
  { s with uploads := s.uploads.insert path row }

def clearUpload (s : DeviceState) (path : String) : DeviceState :=
  { s with uploads := s.uploads.erase path }

def recordLamport (s : DeviceState) (clock : ℕ) : DeviceState :=
  { s with lamport := min clock i64Max }

/-- One row of `record_scan`: `last_synced_hash` stays, a real file makes the row local. -/
def recordScanEntry (s : DeviceState) (entry : LocalEntry) : DeviceState :=
  let record : FileRecord :=
    { path := entry.path, size := min entry.size i64Max, mtimeNs := entry.mtimeNs
      contentHash := entry.hash, lastSyncedHash := Baseline.lastSynced s.files entry.path
      residency := .local
      syncedAt := s.files[entry.path]?.bind FileRecord.syncedAt
      lastHydratedAt := s.files[entry.path]?.bind FileRecord.lastHydratedAt }
  { s with files := s.files.insert entry.path record }

def recordScan (s : DeviceState) (entries : List LocalEntry) : DeviceState :=
  entries.foldl recordScanEntry s

end DeviceState

end FileMirror
