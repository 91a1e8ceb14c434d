import FileMirror.ResumedUploads
import FileMirror.Transitions

set_option autoImplicit false

namespace FileMirror

open Transitions

/-- The parts that a pass sends when the first `skip` are there, and whether the file ends after
them. -/
def sentParts (contents : ℕ → List UInt8) (partSize skip n : ℕ) (nonce : List UInt8)
    (aad : String) : Option (List EncryptedPart × Bool) :=
  ((StreamingEncryptor.new nonce aad).encryptParts contents partSize n).map fun r =>
    (r.1.drop skip, r.2.finished)

def Sending.Undisturbed (sending : Sending) (content : List UInt8) (partSize skip : ℕ)
    (nonce : List UInt8) (aad : String) : Prop :=
  sending.fate ≠ .failed →
    sentParts sending.contents partSize skip sending.parts nonce aad =
      sentParts (fun _ => content) partSize skip sending.parts nonce aad

section Faithful

variable (hash : List UInt8 → ContentHash) (objectKey : String → ContentHash → String)
  (versions : Set (String × List UInt8))

structure Ideal : Prop where
  content : ∀ v ∈ versions, ∀ v' ∈ versions, hash v.2 = hash v'.2 → v.2 = v'.2
  key : ∀ v ∈ versions, ∀ v' ∈ versions,
    objectKey v.1 (hash v.2) = objectKey v'.1 (hash v'.2) → v = v'

/-- A file's length is a `u64`, a nonce has its length, and the store never gives out the id of an
upload that is still pending. -/
structure Upload.Sound (w : UploadWorld) (u : Upload) : Prop where
  version : (u.path, u.content) ∈ versions
  nonce : u.nonce.length = nonceSize
  fits : u.size < 2 ^ 64
  fresh : ∀ (path : String) (row : PendingUpload), w.device.uploads[path]? = some row →
    row.uploadId ≠ u.uploadId

/-- What a pass sends of a file is what it has hashed. -/
def SendsHashed (w : UploadWorld) : UploadStep → Prop
  | .upload u sending =>
      u.hashed.Sound versions w ∧
        sending.Undisturbed u.content
          (if u.content.length ≤ maxSingleShotPutSize then u.content.length
            else getChunkSize u.content.length) 0 u.nonce u.path
  | .relocate u _ _ => u.Sound versions w
  | .resume path _ content sending =>
      (path, content) ∈ versions ∧ ∀ row, w.device.uploads[path]? = some row →
        sending.Undisturbed content row.partSize (nextPartNumber row.completedParts - 1).toNat
          row.nonce path
  | .log _ _ | .ends => True

/-- The object at the delta's key decrypts under its path to what the delta says. -/
def UploadWorld.Honours (w : UploadWorld) (delta : DeltaEntry) : Prop :=
  ∃ object content, w.bucket[delta.objectKey]? = some object ∧
    decryptBytes object delta.path = some content ∧ content.length = delta.size ∧
    hash content = delta.plaintextHash

def UploadWorld.Keeps (w : UploadWorld) (path : String) (size : ℕ) (contentHash : ContentHash)
    (key : String) : Prop :=
  ∃ content, (path, content) ∈ versions ∧ size = content.length ∧ contentHash = hash content ∧
    key = objectKey path (hash content) ∧
    ∃ object, w.bucket[key]? = some object ∧ decryptBytes object path = some content

/-- The first `n` parts that the store has of this upload are those of the content. -/
def UploadWorld.HasParts (w : UploadWorld) (path id : String) (nonce content : List UInt8)
    (partSize n : ℕ) : Prop :=
  ∃ k parts e, (StreamingEncryptor.new nonce path).encryptParts (fun _ => content) partSize k =
      some (parts, e) ∧ n ≤ parts.length ∧
    (w.stored id).take n = (objectParts nonce parts).take n

def UploadWorld.Resumable (w : UploadWorld) (path : String) (row : PendingUpload) : Prop :=
  row.nonce.length = nonceSize ∧ ∃ content n, (path, content) ∈ versions ∧
    row.contentHash = hash content ∧
    row.completedParts.map CompletedUploadPart.partNumber = partNumbers n ∧
    w.HasParts path row.uploadId row.nonce content row.partSize n

structure UploadWorld.Faithful (w : UploadWorld) : Prop where
  rows : ∀ path row, w.device.uploads[path]? = some row → w.Resumable hash versions path row
  ids : ∀ (path path' : String) (row row' : PendingUpload), w.device.uploads[path]? = some row →
    w.device.uploads[path']? = some row' → row.uploadId = row'.uploadId → path = path'
  finished : ∀ f ∈ w.finished,
    w.Keeps hash objectKey versions f.1 f.2.size f.2.contentHash f.2.objectKey
  logged : ∀ d ∈ w.logged,
    w.Keeps hash objectKey versions d.path d.size d.plaintextHash d.objectKey

end Faithful

section Steps

variable {hash : List UInt8 → ContentHash} {objectKey : String → ContentHash → String}
  {receipt : List StoredByte → String × String} {versions : Set (String × List UInt8)}
  {w t : UploadWorld} {path id : String}

namespace UploadWorld

theorem HasParts.take_stored {nonce content : List UInt8} {partSize n : ℕ}
    (h : w.HasParts path id nonce content partSize n) : n ≤ (w.stored id).length := by
  obtain ⟨k, parts, e, -, hlen, htake⟩ := h
  have hlength := congrArg List.length htake
  rw [List.length_take, List.length_take, length_objectParts] at hlength
  omega

theorem Keeps.of_bucket {size : ℕ} {contentHash : ContentHash} {key : String}
    (h : w.Keeps hash objectKey versions path size contentHash key)
    (hbucket : t.bucket = w.bucket) : t.Keeps hash objectKey versions path size contentHash key := by
  obtain ⟨content, hversion, hsize, hhash, hkey, object, hobject, hdecrypts⟩ := h
  exact ⟨content, hversion, hsize, hhash, hkey, object, hbucket ▸ hobject, hdecrypts⟩

theorem Keeps.put (hideal : Ideal hash objectKey versions) {size : ℕ} {contentHash : ContentHash}
    {key other : String} {content : List UInt8} {result : UploadResult} {object : List StoredByte}
    (h : w.Keeps hash objectKey versions path size contentHash key)
    (hversion : (other, content) ∈ versions)
    (hresult : result.objectKey = objectKey other (hash content))
    (hdecrypts : decryptBytes object other = some content) :
    (w.put other result object).Keeps hash objectKey versions path size contentHash key := by
  obtain ⟨kept, hkept, hsize, hhash, hkey, old, hold, hopens⟩ := h
  by_cases hsame : result.objectKey = key
  · have hpair : ((other, content) : String × List UInt8) = (path, kept) :=
      hideal.key _ hversion _ hkept (by rw [← hresult, hsame, hkey])
    cases hpair
    refine ⟨content, hversion, hsize, hhash, hkey, object, ?_, hdecrypts⟩
    simp [UploadWorld.put, hsame]
  · refine ⟨kept, hkept, hsize, hhash, hkey, old, ?_, hopens⟩
    simp [UploadWorld.put, StringMap.getElem?_insert, hsame, hold]

theorem Resumable.of_stored {row : PendingUpload} (h : w.Resumable hash versions path row)
    (hstored : t.stored row.uploadId = w.stored row.uploadId) :
    t.Resumable hash versions path row := by
  obtain ⟨hnonce, content, n, hversion, hhash, hnumbers, k, parts, e, hparts, hlen, htake⟩ := h
  exact ⟨hnonce, content, n, hversion, hhash, hnumbers, k, parts, e, hparts, hlen,
    hstored ▸ htake⟩

theorem Faithful.sameBut (h : w.Faithful hash objectKey versions) (hsame : SameBut path id w t)
    (hothers : ∀ q row, q ≠ path → w.device.uploads[q]? = some row → row.uploadId ≠ id)
    (hrow : ∀ row, t.device.uploads[path]? = some row → t.Resumable hash versions path row ∧
      ∀ q other, q ≠ path → w.device.uploads[q]? = some other → other.uploadId ≠ row.uploadId) :
    t.Faithful hash objectKey versions where
  rows q row hq := by
    by_cases hpath : q = path
    · subst hpath
      exact (hrow row hq).1
    · rw [hsame.rows q hpath] at hq
      exact (h.rows q row hq).of_stored (hsame.stored _ (hothers q row hpath hq))
  ids q q' row row' hq hq' hid := by
    by_cases hpath : q = path
    · by_cases hpath' : q' = path
      · rw [hpath, hpath']
      · rw [hsame.rows q' hpath'] at hq'
        rw [hpath] at hq
        exact absurd hid.symm ((hrow row hq).2 q' row' hpath' hq')
    · rw [hsame.rows q hpath] at hq
      by_cases hpath' : q' = path
      · rw [hpath'] at hq'
        exact absurd hid ((hrow row' hq').2 q row hpath hq)
      · rw [hsame.rows q' hpath'] at hq'
        exact h.ids q q' row row' hq hq' hid
  finished f hf := by
    rw [hsame.finished] at hf
    exact (h.finished f hf).of_bucket hsame.bucket
  logged d hd := by
    rw [hsame.logged] at hd
    exact (h.logged d hd).of_bucket hsame.bucket

theorem Faithful.put (hideal : Ideal hash objectKey versions)
    (h : w.Faithful hash objectKey versions) {content : List UInt8} {size : ℕ} {mtimeNs : ℤ}
    {object : List StoredByte} (hversion : (path, content) ∈ versions)
    (hsize : size = content.length) (hdecrypts : decryptBytes object path = some content) :
    (w.put path ⟨size, mtimeNs, hash content, objectKey path (hash content)⟩ object).Faithful hash
      objectKey versions where
  rows q row hq := (h.rows q row hq).of_stored rfl
  ids := h.ids
  finished f hf := by
    rcases List.mem_append.mp hf with hf | hf
    · exact (h.finished f hf).put hideal hversion rfl hdecrypts
    · rw [List.mem_singleton.mp hf]
      refine ⟨content, hversion, hsize, rfl, rfl, object, ?_, hdecrypts⟩
      simp [UploadWorld.put]
  logged d hd := (h.logged d hd).put hideal hversion rfl hdecrypts

theorem clearUpload_sameBut : SameBut path id w (w.clearUpload path) := by
  refine ⟨rfl, rfl, rfl, fun q hq => ?_, fun _ _ => rfl⟩
  simp [clearUpload, DeviceState.clearUpload, StringMap.getElem?_erase, hq.symm]

theorem Faithful.clearUpload (h : w.Faithful hash objectKey versions) :
    (w.clearUpload path).Faithful hash objectKey versions where
  rows q row hq := by
    simp only [UploadWorld.clearUpload, DeviceState.clearUpload, StringMap.getElem?_erase] at hq
    split_ifs at hq
    exact (h.rows q row hq).of_stored rfl
  ids q q' row row' hq hq' hid := by
    simp only [UploadWorld.clearUpload, DeviceState.clearUpload, StringMap.getElem?_erase] at hq hq'
    split_ifs at hq hq'
    exact h.ids q q' row row' hq hq' hid
  finished f hf := (h.finished f hf).of_bucket rfl
  logged d hd := (h.logged d hd).of_bucket rfl

theorem HasParts.extend {nonce content : List UInt8} {partSize m n : ℕ}
    {contents : ℕ → List UInt8} {parts : List EncryptedPart} {e : StreamingEncryptor}
    (h : w.HasParts path id nonce content partSize m)
    (hparts : (StreamingEncryptor.new nonce path).encryptParts contents partSize n =
      some (parts, e))
    (hsent : sentParts contents partSize m n nonce path =
      sentParts (fun _ => content) partSize m n nonce path)
    (hstored : (t.stored id).take (m + ((objectParts nonce parts).drop m).length) =
      (w.stored id).take m ++ (objectParts nonce parts).drop m) :
    t.HasParts path id nonce content partSize (m + ((objectParts nonce parts).drop m).length) ∧
    (e.finished = true → ∃ k whole last,
      (StreamingEncryptor.new nonce path).encryptParts (fun _ => content) partSize k =
        some (whole, last) ∧ last.finished = true ∧ parts.drop m = whole.drop m ∧
      (t.stored id).take (m + ((objectParts nonce parts).drop m).length) =
        objectParts nonce whole) := by
  obtain ⟨k, before, last, hbefore, hlen, htake⟩ := h
  unfold sentParts at hsent
  rw [hparts, Option.map_some] at hsent
  obtain ⟨⟨whole, last'⟩, hwhole, heq⟩ := Option.map_eq_some_iff.mp hsent.symm
  obtain ⟨hdrop, hfinished⟩ := Prod.mk.inj heq
  simp only at hdrop hfinished
  have hobject := drop_objectParts_congr nonce hdrop
  -- the parts sent before and those of this reading are beginnings of the same content
  have hbegins : m ≤ whole.length → before.take m = whole.take m := by
    intro hm
    rcases Nat.le_total n k with hle | hle
    · obtain ⟨rest, rfl⟩ := (encryptParts_mono hle hwhole hbefore).1
      rw [List.take_append_of_le_length hm]
    · obtain ⟨rest, rfl⟩ := (encryptParts_mono hle hbefore hwhole).1
      rw [List.take_append_of_le_length hlen]
  have hall : m ≤ whole.length →
      (t.stored id).take (m + ((objectParts nonce parts).drop m).length) =
        objectParts nonce whole := by
    intro hm
    rw [hstored, htake, ← hobject, take_objectParts, hbegins hm, ← take_objectParts,
      List.take_append_drop]
  have hcount : m ≤ whole.length →
      m + ((objectParts nonce parts).drop m).length = whole.length := by
    intro hm
    rw [← hobject, List.length_drop, length_objectParts]
    omega
  constructor
  · by_cases hm : m ≤ whole.length
    · refine ⟨n, whole, last', hwhole, (hcount hm).le, ?_⟩
      rw [hall hm, hcount hm, List.take_of_length_le (length_objectParts).le]
    · have hnone : (objectParts nonce parts).drop m = [] := by
        rw [← hobject, List.drop_eq_nil_iff, length_objectParts]
        omega
      rw [hnone] at hstored ⊢
      refine ⟨k, before, last, hbefore, hlen, ?_⟩
      rw [hstored, htake, List.append_nil]
      rfl
  · intro hended
    have hended' : last'.finished = true := hfinished.trans hended
    have hm : m ≤ whole.length := by
      rcases Nat.le_total n k with hle | hle
      · rw [(encryptParts_mono hle hwhole hbefore).2 hended']
        exact hlen
      · exact hlen.trans (encryptParts_mono hle hbefore hwhole).1.length_le
    exact ⟨n, whole, last', hwhole, hended', hdrop.symm, hall hm⟩

theorem HasParts.completes {nonce content : List UInt8} {partSize m n size : ℕ}
    {contents : ℕ → List UInt8} {parts : List EncryptedPart} {e : StreamingEncryptor}
    {completed : List CompletedUploadPart} (hnonce : nonce.length = nonceSize)
    (hcompleted : completed.map CompletedUploadPart.partNumber = partNumbers m)
    (h : w.HasParts path id nonce content partSize m)
    (hparts : (StreamingEncryptor.new nonce path).encryptParts contents partSize n =
      some (parts, e)) (hfinished : e.finished = true)
    (hsent : sentParts contents partSize m n nonce path =
      sentParts (fun _ => content) partSize m n nonce path)
    (hstored : (t.stored id).take (m + ((objectParts nonce parts).drop m).length) =
      (w.stored id).take m ++ (objectParts nonce parts).drop m)
    (hsize : size = content.length ∨ m = 0)
    (hlen : nonceSize + (parts.flatMap EncryptedPart.ciphertext).length = ciphertextLen size) :
    decryptBytes (assemble (t.stored id) (completed.map CompletedUploadPart.partNumber ++
      (List.range ((objectParts nonce parts).drop m).length).map fun i =>
        ((m + 1 + i : ℕ) : ℤ))) path = some content ∧ size = content.length := by
  obtain ⟨hparts', hends⟩ := h.extend hparts hsent hstored
  obtain ⟨k, whole, last, hwhole, hlast, hdrop, hall⟩ := hends hfinished
  obtain ⟨hdecrypts, hlength⟩ := decryptBytes_still hnonce hwhole hlast
  constructor
  · rw [hcompleted, ← partNumbers_add, assemble_partNumbers hparts'.take_stored, hall,
      flatten_objectParts (encryptParts_ne_nil hwhole hlast)]
    exact hdecrypts
  · rcases hsize with hsize | rfl
    · exact hsize
    · rw [List.drop_zero, List.drop_zero] at hdrop
      rw [hdrop, hlength] at hlen
      exact (ciphertextLen_strictMono.injective hlen).symm

def Tracks (w : UploadWorld) (hash : List UInt8 → ContentHash) (u : Upload) (partSize : ℕ)
    (completed : List CompletedUploadPart) : Prop :=
  ∃ row, w.device.uploads[u.path]? = some row ∧ row.uploadId = u.uploadId ∧
    row.partSize = partSize ∧ row.contentHash = hash u.content ∧ row.nonce = u.nonce ∧
    row.completedParts = completed

section Multipart

variable {u : Upload} {partSize m number : ℕ} {completed : List CompletedUploadPart}
  {bytes : List (List StoredByte)} {tracked : Bool} {sending : Sending}

theorem Faithful.cleared (h : w.Faithful hash objectKey versions)
    (hothers : ∀ (q : String) (row : PendingUpload), (tracked = true → q ≠ u.path) →
      w.device.uploads[q]? = some row → row.uploadId ≠ u.uploadId) :
    (if tracked then (writeParts receipt u.path u.uploadId tracked number bytes w).clearUpload u.path
      else writeParts receipt u.path u.uploadId tracked number bytes w).Faithful hash objectKey
        versions := by
  generalize hwritten : writeParts receipt u.path u.uploadId tracked number bytes w = sent
  have hsent : SameBut u.path u.uploadId w sent := hwritten ▸ writeParts_sameBut tracked
  cases tracked with
  | true =>
      rw [if_pos rfl]
      apply h.sameBut (hsent.trans clearUpload_sameBut) fun q row hq => hothers q row fun _ => hq
      intro row hrow
      simp [UploadWorld.clearUpload, DeviceState.clearUpload] at hrow
  | false =>
      rw [if_neg Bool.false_ne_true]
      have hdevice : sent.device = w.device := hwritten ▸ writeParts_untracked
      apply h.sameBut hsent fun q row _ => hothers q row fun hfalse => by cases hfalse
      intro row hrow
      rw [hdevice] at hrow
      have hid := hothers u.path row (fun hfalse => by cases hfalse) hrow
      refine ⟨(h.rows _ row hrow).of_stored (hsent.stored _ hid), fun q other hq hother heq => ?_⟩
      exact hq (h.ids _ _ _ _ hother hrow heq)

theorem Faithful.interrupted (h : w.Faithful hash objectKey versions)
    (hversion : (u.path, u.content) ∈ versions) (hnonce : u.nonce.length = nonceSize)
    (hcompleted : completed.map CompletedUploadPart.partNumber = partNumbers m)
    (hothers : ∀ (q : String) (row : PendingUpload), q ≠ u.path →
      w.device.uploads[q]? = some row → row.uploadId ≠ u.uploadId)
    (htracks : w.Tracks hash u partSize completed)
    (hparts : (writeParts receipt u.path u.uploadId true (m + 1) bytes w).HasParts u.path u.uploadId
      u.nonce u.content partSize (m + bytes.length)) :
    (writeParts receipt u.path u.uploadId true (m + 1) bytes w).Faithful hash objectKey
      versions := by
  obtain ⟨row, hrow, hid, rfl, hhash, hrowNonce, rfl⟩ := htracks
  apply h.sameBut (writeParts_sameBut true) fun q other => hothers q other
  intro next hnext
  obtain ⟨numbered, hrecorded, hnumbers⟩ := writeParts_row receipt u.uploadId bytes hrow hcompleted
  rw [hrecorded] at hnext
  cases hnext
  constructor
  · refine ⟨?_, u.content, m + bytes.length, hversion, hhash, hnumbers, ?_⟩
    · simp only [hrowNonce, hnonce]
    · simp only [hid, hrowNonce]
      exact hparts
  · intro q other hq hother
    simp only [hid]
    exact hothers q other hq hother

theorem Faithful.sendMultipart (hideal : Ideal hash objectKey versions)
    (h : w.Faithful hash objectKey versions) (hversion : (u.path, u.content) ∈ versions)
    (hnonce : u.nonce.length = nonceSize)
    (hcompleted : completed.map CompletedUploadPart.partNumber = partNumbers m)
    (hparts : w.HasParts u.path u.uploadId u.nonce u.content partSize m)
    (hsize : u.size = u.content.length ∨ m = 0)
    (hundisturbed : sending.Undisturbed u.content partSize m u.nonce u.path)
    (hothers : ∀ (q : String) (row : PendingUpload), (tracked = true → q ≠ u.path) →
      w.device.uploads[q]? = some row → row.uploadId ≠ u.uploadId)
    (htracks : tracked = true → w.Tracks hash u partSize completed)
    (hsend : w.sendMultipart hash objectKey receipt u partSize completed tracked sending = some t) :
    t.Faithful hash objectKey versions := by
  unfold UploadWorld.sendMultipart at hsend
  rw [nextPartNumber_eq hcompleted] at hsend
  simp only at hsend
  cases hencrypt : (StreamingEncryptor.new u.nonce u.path).encryptParts sending.contents partSize
      sending.parts with
  | none =>
      rw [hencrypt] at hsend
      cases hsend
      split_ifs
      · exact h.clearUpload
      · exact h
  | some encrypted =>
      obtain ⟨parts, e⟩ := encrypted
      rw [hencrypt] at hsend
      simp only at hsend
      generalize hsent : writeParts receipt u.path u.uploadId tracked (m + 1)
        ((objectParts u.nonce parts).drop m) w = sent at hsend
      have hcleared : (if tracked then sent.clearUpload u.path else sent).Faithful hash objectKey
          versions := hsent ▸ h.cleared hothers
      have hstored : (sent.stored u.uploadId).take
          (m + ((objectParts u.nonce parts).drop m).length) =
            (w.stored u.uploadId).take m ++ (objectParts u.nonce parts).drop m :=
        hsent ▸ writeParts_stored tracked rfl hparts.take_stored
      generalize (if tracked then sent.clearUpload u.path else sent) = cleared at hsend hcleared
      unfold Sending.Undisturbed at hundisturbed
      cases hfate : sending.fate with
      | interrupted =>
          rw [hfate] at hsend hundisturbed
          cases hsend
          cases tracked with
          | false => exact hsent ▸ h.cleared hothers
          | true =>
              have hmore := (hparts.extend hencrypt (hundisturbed (by simp)) hstored).1
              rw [← hsent] at hmore ⊢
              exact h.interrupted hversion hnonce hcompleted
                (fun q row hq => hothers q row fun _ => hq) (htracks rfl) hmore
      | failed =>
          rw [hfate] at hsend
          cases hsend
          exact hcleared
      | completed =>
          rw [hfate] at hsend hundisturbed
          simp only at hsend
          split_ifs at hsend with hfinished hlen
          · cases hsend
            obtain ⟨hdecrypts, hlength⟩ := hparts.completes hnonce hcompleted hencrypt hfinished
              (hundisturbed (by simp)) hstored hsize hlen
            exact hcleared.put hideal hversion hlength hdecrypts
          · cases hsend
            exact hcleared

theorem single_shot {content nonce : List UInt8} {size : ℕ} {parts : List EncryptedPart}
    {e : StreamingEncryptor} (hnonce : nonce.length = nonceSize)
    (hundisturbed : sending.Undisturbed content size 0 nonce path)
    (hfate : sending.fate = .completed)
    (hparts : (StreamingEncryptor.new nonce path).encryptParts sending.contents size
      sending.parts = some (parts, e)) (hfinished : e.finished = true)
    (hlen : (nonce.map StoredByte.plain ++ parts.flatMap EncryptedPart.ciphertext).length =
      ciphertextLen size) :
    decryptBytes (nonce.map .plain ++ parts.flatMap EncryptedPart.ciphertext) path =
      some content ∧ size = content.length := by
  have hsent := hundisturbed (by rw [hfate]; exact Fate.noConfusion)
  unfold sentParts at hsent
  rw [hparts, Option.map_some] at hsent
  obtain ⟨⟨whole, last⟩, hwhole, heq⟩ := Option.map_eq_some_iff.mp hsent.symm
  obtain ⟨hsame, hlast⟩ := Prod.mk.inj heq
  rw [List.drop_zero, List.drop_zero] at hsame
  subst hsame
  obtain ⟨hdecrypts, hlength⟩ := decryptBytes_still hnonce hwhole (hlast.trans hfinished)
  rw [List.length_append, List.length_map, hnonce, hlength] at hlen
  exact ⟨hdecrypts, (ciphertextLen_strictMono.injective hlen).symm⟩

theorem Faithful.uploadFile (hideal : Ideal hash objectKey versions)
    (h : w.Faithful hash objectKey versions) (hsound : u.Sound versions w)
    (hundisturbed : sending.Undisturbed u.content
      (if u.size ≤ maxSingleShotPutSize then u.size else getChunkSize u.size) 0 u.nonce u.path)
    (hnew : tracked = true → w.device.uploads[u.path]? = none)
    (hstep : w.uploadFile hash objectKey receipt u tracked sending = some t) :
    t.Faithful hash objectKey versions := by
  unfold UploadWorld.uploadFile at hstep
  simp only at hstep
  by_cases hsingle : u.size ≤ maxSingleShotPutSize
  · rw [if_pos hsingle] at hstep hundisturbed
    split at hstep
    · rename_i parts e hencrypt hfate
      split_ifs at hstep with hfinished hlen
      · cases hstep
        obtain ⟨hdecrypts, hsize⟩ :=
          single_shot hsound.nonce hundisturbed hfate hencrypt hfinished hlen
        exact h.put hideal hsound.version hsize hdecrypts
      · cases hstep
        exact h
    · cases hstep
      exact h
  rw [if_neg hsingle] at hstep hundisturbed
  generalize hstarted : (if tracked = true then w.device.recordUploadStart u.path u.uploadId
    (getChunkSize u.size) (hash u.content) u.nonce else w.device) = started at hstep
  have hempty : ∀ t : UploadWorld,
      t.HasParts u.path u.uploadId u.nonce u.content (getChunkSize u.size) 0 :=
    fun t => ⟨0, [], _, rfl, Nat.zero_le _, rfl⟩
  have hsame : SameBut u.path u.uploadId w
      { w with device := started, multiparts := w.multiparts.insert u.uploadId [] } := by
    refine ⟨rfl, rfl, rfl, fun q hq => ?_, fun other hother => ?_⟩
    · subst hstarted
      cases tracked with
      | false => rfl
      | true => simp [DeviceState.recordUploadStart, StringMap.getElem?_insert, hq.symm]
    · simp [stored, StringMap.getElem?_insert, hother.symm]
  cases tracked with
  | false =>
      subst hstarted
      have hstart := h.sameBut hsame (fun q row _ => hsound.fresh q row) fun row hrow =>
        ⟨(h.rows _ row hrow).of_stored (hsame.stored _ (hsound.fresh _ row hrow)),
          fun q other hq hother heq => hq (h.ids _ _ _ _ hother hrow heq)⟩
      exact hstart.sendMultipart hideal hsound.version hsound.nonce rfl (hempty _) (.inr rfl)
        hundisturbed (fun q row _ => hsound.fresh q row) (fun hfalse => by cases hfalse) hstep
  | true =>
      have hrow : started.uploads[u.path]? =
          some ⟨u.path, u.uploadId, getChunkSize u.size, hash u.content, u.nonce, []⟩ := by
        subst hstarted
        simp [DeviceState.recordUploadStart, hnew rfl, Nat.min_eq_left (getChunkSize_le hsound.fits)]
      have hstart : UploadWorld.Faithful hash objectKey versions
          { w with device := started, multiparts := w.multiparts.insert u.uploadId [] } := by
        apply h.sameBut hsame fun q row _ => hsound.fresh q row
        intro row hrow'
        have hsameRow := hrow.symm.trans hrow'
        cases hsameRow
        exact ⟨⟨hsound.nonce, u.content, 0, hsound.version, rfl, rfl, hempty _⟩,
          fun q other hq hother => hsound.fresh q other hother⟩
      refine hstart.sendMultipart hideal hsound.version hsound.nonce rfl (hempty _) (.inr rfl)
        hundisturbed (fun q row hq hq' => ?_) (fun _ => ⟨_, hrow, rfl, rfl, rfl, rfl, rfl⟩) hstep
      rw [hsame.rows q (hq rfl)] at hq'
      exact hsound.fresh q row hq'

theorem Faithful.resumeUpload (hideal : Ideal hash objectKey versions)
    (h : w.Faithful hash objectKey versions) {content : List UInt8} {mtimeNs : ℤ}
    (hversion : (path, content) ∈ versions)
    (hundisturbed : ∀ row, w.device.uploads[path]? = some row →
      sending.Undisturbed content row.partSize (nextPartNumber row.completedParts - 1).toNat
        row.nonce path)
    (hstep : w.resumeUpload hash objectKey receipt path mtimeNs content sending = some t) :
    t.Faithful hash objectKey versions := by
  unfold UploadWorld.resumeUpload at hstep
  cases hrow : w.device.uploads[path]? with
  | none =>
      rw [hrow] at hstep
      cases hstep
  | some row =>
      rw [hrow] at hstep
      simp only at hstep
      split_ifs at hstep with hhash
      · obtain ⟨hnonce, hashed, n, hhashed, hrowHash, hnumbers, hparts⟩ := h.rows path row hrow
        have hcontent : content = hashed :=
          hideal.content _ hversion _ hhashed (hhash.trans hrowHash)
        subst hcontent
        have hsends := hundisturbed row hrow
        rw [nextPartNumber_eq hnumbers] at hsends
        refine h.sendMultipart hideal hversion hnonce hnumbers hparts (.inl rfl) hsends
          (fun q other hq hother heq => ?_) (fun _ => ⟨row, hrow, rfl, rfl, hhash.symm, rfl, rfl⟩)
          hstep
        exact hq rfl (h.ids _ _ _ _ hother hrow heq)
      · cases hstep
        exact h.clearUpload

theorem Faithful.step {s : UploadStep} (hideal : Ideal hash objectKey versions)
    (h : w.Faithful hash objectKey versions) (hguard : SendsHashed versions w s)
    (hstep : w.step hash objectKey receipt s = some t) : t.Faithful hash objectKey versions := by
  cases s with
  | upload u sending =>
      simp only [UploadWorld.step] at hstep
      split_ifs at hstep with hpending
      refine h.uploadFile hideal hguard.1 hguard.2 (fun _ => ?_) hstep
      simpa [Upload.hashed] using hpending
  | relocate u parts fate =>
      exact h.uploadFile hideal hguard (fun _ => rfl) (fun hfalse => by cases hfalse) hstep
  | resume path mtimeNs content sending =>
      exact h.resumeUpload hideal hguard.1 hguard.2 hstep
  | log manifest clock =>
      cases hstep
      refine ⟨fun path row hrow => (h.rows path row hrow).of_stored rfl, h.ids, ?_, ?_⟩
      · intro f hf
        cases hf
      · intro d hd
        rcases List.mem_append.mp hd with hd | hd
        · exact (h.logged d hd).of_bucket rfl
        · obtain ⟨f, hf, rfl⟩ := List.mem_map.mp hd
          exact (h.finished f hf).of_bucket rfl
  | ends =>
      cases hstep
      refine ⟨fun path row hrow => (h.rows path row hrow).of_stored rfl, h.ids, ?_, ?_⟩
      · intro f hf
        cases hf
      · exact fun d hd => (h.logged d hd).of_bucket rfl

end Multipart

end UploadWorld

end Steps

/-- In every run of uploads, relocations and resumed uploads, interrupted anywhere, whose passes send
of each file what they have hashed, each logged delta is honoured by the object at its key. -/
theorem logged_version_is_its_content {hash : List UInt8 → ContentHash}
    {objectKey : String → ContentHash → String} {receipt : List StoredByte → String × String}
    {versions : Set (String × List UInt8)} {start t : UploadWorld} {steps : List UploadStep}
    (hideal : Ideal hash objectKey versions) (hpending : start.device.uploads = ∅)
    (hfinished : start.finished = []) (hlogged : start.logged = [])
    (hrun : Runs (UploadWorld.step hash objectKey receipt) (SendsHashed versions) start steps t) :
    ∀ d ∈ t.logged, t.Honours hash d := by
  have hstart : start.Faithful hash objectKey versions := by
    constructor
    · intro path row hrow
      rw [hpending] at hrow
      cases hrow
    · intro path path' row row' hrow
      rw [hpending] at hrow
      cases hrow
    · rw [hfinished]
      exact fun f hf => by cases hf
    · rw [hlogged]
      exact fun d hd => by cases hd
  have hstep : ∀ (w : UploadWorld) (s : UploadStep) (u : UploadWorld),
      w.Faithful hash objectKey versions → SendsHashed versions w s →
      w.step hash objectKey receipt s = some u → u.Faithful hash objectKey versions :=
    fun _ _ _ h hguard hs => h.step hideal hguard hs
  intro d hd
  obtain ⟨content, -, hsize, hhash, -, object, hobject, hdecrypts⟩ :=
    (hrun.invariant hstart hstep).logged d hd
  exact ⟨object, content, hobject, hdecrypts, hsize.symm, hhash.symm⟩

section Runs

def sampleClock : PassClock := ⟨"phone", "phone", 1, fun _ => 0, fun _ => "now"⟩

/-- The file is hashed with content 1, holds `later` from then on, and is uploaded and logged. -/
def uploadWhile (later : List UInt8) : List UploadStep :=
  [.upload ⟨"a", 1, 5, [1], List.replicate 19 0, "upload"⟩ ⟨fun _ => later, 1, .completed⟩,
    .log ∅ sampleClock]

def loggedVersion : DeltaEntry :=
  newDelta ∅ sampleClock "a" ⟨1, 5, sampleHash [1], sampleKey "a" (sampleHash [1])⟩

/-- The process dies once a part is there, and the next pass goes on with the upload. -/
theorem logged_version_is_its_content_resumed : ∃ w t,
    idleUploads.step sampleHash sampleKey sampleReceipt
        (.upload largeUpload ⟨fun _ => largeFile 1, 1, .interrupted⟩) = some w ∧
      w.Interrupted sampleHash largeUpload (getChunkSize (largeFile 1).length) 1 ∧
      execute (UploadWorld.step sampleHash sampleKey sampleReceipt) w
        [.resume "a" 5 (largeFile 1) ⟨fun _ => largeFile 1, 1000, .completed⟩,
          .log ∅ sampleClock] = some t ∧
      ∃ d ∈ t.logged, d.path = "a" ∧ t.Honours sampleHash d := by
  obtain ⟨_, hcount, _⟩ := large_largeFile 1
  obtain ⟨w, hupload, hrow, _, hfinished, _⟩ := largeUpload_interrupted
  obtain ⟨resumed, hresumed, hlogs⟩ := hrow.completes sampleKey sampleReceipt 5 List.length_replicate
    hcount (frameCount_largeFile 1)
  rw [hfinished, List.nil_append] at hlogs
  have hresume : w.step sampleHash sampleKey sampleReceipt (.resume "a" 5 (largeFile 1)
      ⟨fun _ => largeFile 1, 1000, .completed⟩) = some resumed := hresumed
  generalize hlogged : ({ resumed with
    finished := []
    logged := resumed.logged ++ resumed.finished.map fun f => newDelta ∅ sampleClock f.1 f.2 } :
      UploadWorld) = t
  have hlog : resumed.step sampleHash sampleKey sampleReceipt (.log ∅ sampleClock) = some t :=
    congrArg some hlogged
  have hideal : Ideal sampleHash sampleKey {("a", largeFile 1)} := by
    constructor
    · rintro v rfl v' rfl -
      rfl
    · rintro v rfl v' rfl -
      rfl
  have hfits : (largeFile 1).length < 2 ^ 64 := by
    unfold largeFile
    rw [List.length_replicate]
    decide
  have hrun : Runs (UploadWorld.step sampleHash sampleKey sampleReceipt)
      (SendsHashed {("a", largeFile 1)}) idleUploads
      [.upload largeUpload ⟨fun _ => largeFile 1, 1, .interrupted⟩,
        .resume "a" 5 (largeFile 1) ⟨fun _ => largeFile 1, 1000, .completed⟩,
        .log ∅ sampleClock] t := by
    refine .next ⟨⟨rfl, List.length_replicate, hfits, fun path row hrow => ?_⟩, fun _ => rfl⟩ hupload
      (.next ⟨rfl, fun _ _ _ => rfl⟩ hresume (.next trivial hlog (.refl _)))
    cases hrow
  have hmem : newDelta ∅ sampleClock "a" ⟨(largeFile 1).length, 5, sampleHash (largeFile 1),
      sampleKey "a" (sampleHash (largeFile 1))⟩ ∈ t.logged := by
    rw [← hlogged]
    dsimp only
    rw [hlogs]
    exact List.mem_append_right _ (List.mem_singleton_self _)
  refine ⟨w, t, hupload, hrow, ?_, _, hmem, rfl,
    logged_version_is_its_content hideal rfl rfl rfl hrun _ hmem⟩
  unfold execute
  rw [List.foldlM_cons, hresume]
  exact hlog

/-- The file is written between the read that hashes it and the one that seals it, with as many
bytes as before. -/
theorem logged_version_is_other_content :
    ∃ t, execute (UploadWorld.step sampleHash sampleKey sampleReceipt) idleUploads
        (uploadWhile [2]) = some t ∧
      loggedVersion ∈ t.logged ∧ ¬ t.Honours sampleHash loggedVersion := by
  have hruns : (execute (UploadWorld.step sampleHash sampleKey sampleReceipt) idleUploads
      (uploadWhile [2])).isSome := by decide +kernel
  obtain ⟨t, ht⟩ := Option.isSome_iff_exists.mp hruns
  have hlogged : (execute (UploadWorld.step sampleHash sampleKey sampleReceipt) idleUploads
      (uploadWhile [2])).map UploadWorld.logged = some [loggedVersion] := by decide +kernel
  have hopens : (execute (UploadWorld.step sampleHash sampleKey sampleReceipt) idleUploads
      (uploadWhile [2])).map (fun t => t.bucket[loggedVersion.objectKey]?.map
        fun object => decryptBytes object "a") = some (some (some [2])) := by decide +kernel
  rw [ht, Option.map_some, Option.some.injEq] at hlogged hopens
  refine ⟨t, ht, hlogged ▸ List.mem_singleton_self _, ?_⟩
  rintro ⟨object, content, hobject, hdecrypts, -, hhash⟩
  rw [hobject, Option.map_some, Option.some.injEq] at hopens
  have hsame : content = [2] := Option.some.inj (hdecrypts.symm.trans hopens)
  subst hsame
  have hdiffer : sampleHash [2] ≠ loggedVersion.plaintextHash := by decide +kernel
  exact hdiffer hhash

end Runs

end FileMirror
