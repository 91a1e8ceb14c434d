import FileMirror.Apply
import FileMirror.Streaming

set_option autoImplicit false

/-!
# Uploads that may be interrupted

`apply/upload.rs` and what `resume_uploads` makes of it. The file is hashed in one read and sealed in
another, and a resumed object is put together from parts that were sealed in different passes.
-/

namespace FileMirror

def maxSingleShotPutSize : ℕ := 8 * 1024 * 1024

def getChunkSize (fileLen : ℕ) : ℕ :=
  let minS3PartSize := 5 * 1024 * 1024
  let maxS3Parts := 10000
  let targetPartSize := 8 * 1024 * 1024
  if fileLen ≤ minS3PartSize then minS3PartSize
  else
    let requiredMinByLimit := fileLen / maxS3Parts + 1
    max targetPartSize (max minS3PartSize requiredMinByLimit)

theorem getChunkSize_le {fileLen : ℕ} (h : fileLen < 2 ^ 64) : getChunkSize fileLen ≤ i64Max := by
  simp only [getChunkSize, i64Max]
  split_ifs <;> omega

def objectParts (nonce : List UInt8) : List EncryptedPart → List (List StoredByte)
  | [] => []
  | part :: parts => (nonce.map .plain ++ part.ciphertext) :: parts.map EncryptedPart.ciphertext

def insertPart (part : CompletedUploadPart) : List CompletedUploadPart → List CompletedUploadPart
  | [] => [part]
  | first :: parts =>
      if first.partNumber = part.partNumber then part :: parts
      else if part.partNumber < first.partNumber then part :: first :: parts
      else first :: insertPart part parts

def DeviceState.recordUploadPart (s : DeviceState) (path : String) (part : CompletedUploadPart) :
    DeviceState :=
  match s.uploads[path]? with
  | none => s
  | some row =>
      let row := { row with completedParts := insertPart part row.completedParts }
      { s with uploads := s.uploads.insert path row }

def nextPartNumber (parts : List CompletedUploadPart) : ℤ :=
  (parts.map CompletedUploadPart.partNumber).max?.getD 0 + 1

def assemble (parts : List (List StoredByte)) (numbers : List ℤ) : List StoredByte :=
  numbers.flatMap fun number => (parts[(number - 1).toNat]?).getD []

/-- What a device's uploads have come to: `multiparts` holds what the store has of each multipart
upload, `finished` what the pass has yet to log. -/
structure UploadWorld where
  device : DeviceState
  bucket : StringMap (List StoredByte)
  multiparts : StringMap (List (List StoredByte))
  finished : List (String × UploadResult)
  logged : List DeltaEntry

inductive Fate where
  | interrupted
  | failed
  | completed
  deriving DecidableEq

/-- One encryption of a file: what the file holds at each attempt to read a byte of it, how many
parts it comes to, and how it ends. -/
structure Sending where
  contents : ℕ → List UInt8
  parts : ℕ
  fate : Fate

/-- What `upload_file` is asked to send and under which names. -/
structure Upload where
  path : String
  size : ℕ
  mtimeNs : ℤ
  content : List UInt8
  nonce : List UInt8
  uploadId : String

/-- The size that `hash_stable` finds with the content. -/
def Upload.hashed (u : Upload) : Upload := { u with size := u.content.length }

inductive UploadStep where
  | upload (u : Upload) (sending : Sending)
  | relocate (u : Upload) (parts : ℕ) (fate : Fate)
  | resume (path : String) (mtimeNs : ℤ) (content : List UInt8) (sending : Sending)
  | log (manifest : Manifest) (clock : PassClock)
  | ends

section Model

variable (hash : List UInt8 → ContentHash) (objectKey : String → ContentHash → String)
  (receipt : List StoredByte → String × String)

namespace UploadWorld

def clearUpload (w : UploadWorld) (path : String) : UploadWorld :=
  { w with device := w.device.clearUpload path }

/-- `write_part` from part `number` on, each recorded once it is there where uploads are tracked.
A part that was sent before but not recorded is replaced. -/
def writeParts (path uploadId : String) (tracked : Bool) :
    ℕ → List (List StoredByte) → UploadWorld → UploadWorld
  | _, [], w => w
  | number, bytes :: rest, w =>
      let parts := (w.multiparts[uploadId]?.getD []).take (number - 1) ++ [bytes]
      let part : CompletedUploadPart := ⟨number, (receipt bytes).1, (receipt bytes).2⟩
      writeParts path uploadId tracked (number + 1) rest
        { w with
          multiparts := w.multiparts.insert uploadId parts
          device := if tracked then w.device.recordUploadPart path part else w.device }

/-- The object is there, and the delta that names it is to be logged. -/
def put (w : UploadWorld) (path : String) (result : UploadResult) (object : List StoredByte) :
    UploadWorld :=
  { w with
    bucket := w.bucket.insert result.objectKey object
    finished := w.finished ++ [(path, result)] }

/-- The loop over the parts, `check_object_len` and `finish`, of a new upload or of one of which
the parts `completed` are there. -/
def sendMultipart (w : UploadWorld) (u : Upload) (partSize : ℕ)
    (completed : List CompletedUploadPart) (tracked : Bool) (sending : Sending) :
    Option UploadWorld :=
  let result : UploadResult := ⟨u.size, u.mtimeNs, hash u.content, objectKey u.path (hash u.content)⟩
  let skip := (nextPartNumber completed - 1).toNat
  let clear := fun w : UploadWorld => if tracked then w.clearUpload u.path else w
  match (StreamingEncryptor.new u.nonce u.path).encryptParts sending.contents partSize
      sending.parts with
  | none => some (clear w)
  | some (parts, e) =>
      let new := (objectParts u.nonce parts).drop skip
      let sent := writeParts receipt u.path u.uploadId tracked (skip + 1) new w
      match sending.fate with
      | .interrupted => some sent
      | .failed => some (clear sent)
      | .completed =>
          if e.finished then
            let objectLen := nonceSize + (parts.flatMap EncryptedPart.ciphertext).length
            let numbers := completed.map CompletedUploadPart.partNumber ++
              (List.range new.length).map fun i => ((skip + 1 + i : ℕ) : ℤ)
            let object := assemble (sent.multiparts[u.uploadId]?.getD []) numbers
            if objectLen = ciphertextLen u.size then some ((clear sent).put u.path result object)
            else some (clear sent)
          else none

/-- `upload_file`; it keeps a record that a later pass can resume from where `tracked`. -/
def uploadFile (w : UploadWorld) (u : Upload) (tracked : Bool) (sending : Sending) :
    Option UploadWorld :=
  let result : UploadResult := ⟨u.size, u.mtimeNs, hash u.content, objectKey u.path (hash u.content)⟩
  if u.size ≤ maxSingleShotPutSize then
    match (StreamingEncryptor.new u.nonce u.path).encryptParts sending.contents u.size
        sending.parts, sending.fate with
    | some (parts, e), .completed =>
        if e.finished then
          let payload := u.nonce.map .plain ++ parts.flatMap EncryptedPart.ciphertext
          if payload.length = ciphertextLen u.size then some (w.put u.path result payload)
          else some w
        else none
    | _, _ => some w
  else
    let partSize := getChunkSize u.size
    let started := if tracked then
        w.device.recordUploadStart u.path u.uploadId partSize (hash u.content) u.nonce
      else w.device
    sendMultipart hash objectKey receipt
      { w with device := started, multiparts := w.multiparts.insert u.uploadId [] } u partSize []
      tracked sending

/-- One pending upload of `resume_uploads`; the file's size is that of what was hashed. -/
def resumeUpload (w : UploadWorld) (path : String) (mtimeNs : ℤ) (content : List UInt8)
    (sending : Sending) : Option UploadWorld :=
  match w.device.uploads[path]? with
  | none => none
  | some row =>
      if hash content = row.contentHash then
        sendMultipart hash objectKey receipt w
          ⟨path, content.length, mtimeNs, content, row.nonce, row.uploadId⟩ row.partSize
          row.completedParts true sending
      else some (w.clearUpload path)

/-- `resume_uploads` comes before every other transfer and leaves no record, so that a file is
never uploaded while one of its path is pending. -/
def step (w : UploadWorld) : UploadStep → Option UploadWorld
  | .upload u sending =>
      if w.device.uploads[u.path]?.isSome then none
      else uploadFile hash objectKey receipt w u.hashed true sending
  | .relocate u parts fate =>
      uploadFile hash objectKey receipt w u false ⟨fun _ => u.content, parts, fate⟩
  | .resume path mtimeNs content sending =>
      resumeUpload hash objectKey receipt w path mtimeNs content sending
  | .log manifest clock =>
      some { w with
        finished := []
        logged := w.logged ++ w.finished.map fun f => newDelta manifest clock f.1 f.2 }
  | .ends => some { w with finished := [] }

end UploadWorld

end Model

/-- The numbers of the first `n` parts. -/
def partNumbers (n : ℕ) : List ℤ := (List.range n).map fun i => ((i + 1 : ℕ) : ℤ)

section Parts

variable {nonce : List UInt8} {parts more : List EncryptedPart}

@[simp] theorem length_objectParts : (objectParts nonce parts).length = parts.length := by
  cases parts <;> simp [objectParts]

theorem flatten_objectParts (h : parts ≠ []) :
    (objectParts nonce parts).flatten =
      nonce.map .plain ++ parts.flatMap EncryptedPart.ciphertext := by
  cases parts with
  | nil => exact absurd rfl h
  | cons part parts => simp [objectParts, List.flatMap]

theorem take_objectParts (n : ℕ) :
    (objectParts nonce parts).take n = objectParts nonce (parts.take n) := by
  cases parts with
  | nil => simp [objectParts]
  | cons part parts =>
      cases n with
      | zero => rfl
      | succ n => simp [objectParts, List.map_take]

theorem drop_objectParts_congr (nonce : List UInt8) {n : ℕ} (h : parts.drop n = more.drop n) :
    (objectParts nonce parts).drop n = (objectParts nonce more).drop n := by
  cases n with
  | zero =>
      rw [List.drop_zero, List.drop_zero] at h
      rw [h]
  | succ n =>
      cases parts <;> cases more <;> simp_all [objectParts, ← List.map_drop]

theorem partNumbers_succ (n : ℕ) : partNumbers (n + 1) = partNumbers n ++ [((n + 1 : ℕ) : ℤ)] := by
  simp [partNumbers, List.range_succ]

theorem partNumbers_add (n k : ℕ) : partNumbers (n + k) =
    partNumbers n ++ (List.range k).map fun i => ((n + 1 + i : ℕ) : ℤ) := by
  induction k with
  | zero => simp
  | succ k ih =>
      have hnumber : n + k + 1 = n + 1 + k := by omega
      rw [← Nat.add_assoc, partNumbers_succ, ih, List.range_succ, List.map_append,
        List.append_assoc, List.map_singleton, hnumber]

theorem max_partNumbers (n : ℕ) : (partNumbers n).max?.getD 0 = n := by
  cases n with
  | zero => rfl
  | succ n =>
      have hmax : (partNumbers (n + 1)).max? = some ((n + 1 : ℕ) : ℤ) := by
        rw [List.max?_eq_some_iff]
        constructor
        · simp [partNumbers_succ]
        · intro number hmem
          simp only [partNumbers, List.mem_map, List.mem_range] at hmem
          obtain ⟨i, hi, rfl⟩ := hmem
          omega
      rw [hmax, Option.getD_some]

theorem nextPartNumber_eq {completed : List CompletedUploadPart} {n : ℕ}
    (h : completed.map CompletedUploadPart.partNumber = partNumbers n) :
    (nextPartNumber completed - 1).toNat = n := by
  rw [nextPartNumber, h, max_partNumbers]
  omega

theorem insertPart_last {completed : List CompletedUploadPart} {part : CompletedUploadPart}
    (h : ∀ q ∈ completed, q.partNumber < part.partNumber) :
    insertPart part completed = completed ++ [part] := by
  induction completed with
  | nil => rfl
  | cons first completed ih =>
      have hfirst := h first (List.mem_cons_self ..)
      unfold insertPart
      rw [if_neg (by omega), if_neg (by omega), ih fun q hq => h q (List.mem_cons_of_mem _ hq)]
      rfl

theorem insertPart_next {completed : List CompletedUploadPart} {part : CompletedUploadPart} {n : ℕ}
    (h : completed.map CompletedUploadPart.partNumber = partNumbers n)
    (hpart : part.partNumber = ((n + 1 : ℕ) : ℤ)) :
    (insertPart part completed).map CompletedUploadPart.partNumber = partNumbers (n + 1) := by
  rw [insertPart_last, List.map_append, h, partNumbers_succ, List.map_singleton, hpart]
  intro q hq
  have hmem : q.partNumber ∈ partNumbers n := by
    rw [← h]
    exact List.mem_map_of_mem hq
  simp only [partNumbers, List.mem_map, List.mem_range] at hmem
  obtain ⟨i, hi, hnumber⟩ := hmem
  omega

theorem assemble_partNumbers {stored : List (List StoredByte)} {n : ℕ} (h : n ≤ stored.length) :
    assemble stored (partNumbers n) = (stored.take n).flatten := by
  induction n with
  | zero => rfl
  | succ n ih =>
      have hlt : n < stored.length := by omega
      have hnumber : (((n + 1 : ℕ) : ℤ) - 1).toNat = n := by omega
      unfold assemble at ih ⊢
      rw [partNumbers_succ, List.flatMap_append, ih (by omega), List.take_succ_eq_append_getElem hlt,
        List.flatten_append, List.flatMap_singleton, hnumber, List.getElem?_eq_getElem hlt]
      simp

end Parts

section Writes

variable {receipt : List StoredByte → String × String} {path id : String} {w : UploadWorld}
  {bytes : List (List StoredByte)} {number n : ℕ}

namespace UploadWorld

/-- The parts that the store has of a multipart upload. -/
def stored (w : UploadWorld) (id : String) : List (List StoredByte) :=
  w.multiparts[id]?.getD []

structure SameBut (path id : String) (w t : UploadWorld) : Prop where
  bucket : t.bucket = w.bucket
  finished : t.finished = w.finished
  logged : t.logged = w.logged
  rows : ∀ q, q ≠ path → t.device.uploads[q]? = w.device.uploads[q]?
  stored : ∀ other, other ≠ id → t.stored other = w.stored other

theorem SameBut.trans {t u : UploadWorld} (h : SameBut path id w t) (h' : SameBut path id t u) :
    SameBut path id w u where
  bucket := h'.bucket.trans h.bucket
  finished := h'.finished.trans h.finished
  logged := h'.logged.trans h.logged
  rows q hq := (h'.rows q hq).trans (h.rows q hq)
  stored other hother := (h'.stored other hother).trans (h.stored other hother)

theorem writeParts_sameBut (tracked : Bool) :
    SameBut path id w (writeParts receipt path id tracked number bytes w) := by
  induction bytes generalizing number w with
  | nil => exact ⟨rfl, rfl, rfl, fun _ _ => rfl, fun _ _ => rfl⟩
  | cons first bytes ih =>
      unfold writeParts
      apply SameBut.trans ?_ ih
      refine ⟨rfl, rfl, rfl, fun q hq => ?_, fun other hother => ?_⟩
      · cases tracked with
        | false => rfl
        | true =>
            simp only [DeviceState.recordUploadPart, if_true]
            cases w.device.uploads[path]? with
            | none => rfl
            | some row => simp [StringMap.getElem?_insert, hq.symm]
      · simp [stored, StringMap.getElem?_insert, hother.symm]

theorem writeParts_untracked :
    (writeParts receipt path id false number bytes w).device = w.device := by
  induction bytes generalizing number w with
  | nil => rfl
  | cons first bytes ih =>
      unfold writeParts
      rw [ih]
      rfl

theorem writeParts_stored (tracked : Bool) (hnumber : number = n + 1)
    (hlen : n ≤ (w.stored id).length) :
    ((writeParts receipt path id tracked number bytes w).stored id).take (n + bytes.length) =
      (w.stored id).take n ++ bytes := by
  subst hnumber
  induction bytes generalizing n w with
  | nil => simp [writeParts]
  | cons first bytes ih =>
      unfold writeParts
      have htake : ((w.stored id).take n ++ [first]).length = n + 1 := by
        rw [List.length_append, List.length_take, List.length_singleton]
        omega
      have hlength : n + (first :: bytes).length = n + 1 + bytes.length := by
        rw [List.length_cons]
        omega
      rw [hlength, ih]
      · simp only [stored, StringMap.getElem?_insert, if_true, Option.getD_some,
          Nat.add_sub_cancel] at htake ⊢
        rw [List.take_of_length_le htake.le, List.append_assoc, List.singleton_append]
      · simp only [stored, StringMap.getElem?_insert, if_true, Option.getD_some,
          Nat.add_sub_cancel] at htake ⊢
        exact htake.ge

theorem writeParts_row (receipt : List StoredByte → String × String) (id : String)
    (bytes : List (List StoredByte)) {row : PendingUpload} (hrow : w.device.uploads[path]? = some row)
    (hcompleted : row.completedParts.map CompletedUploadPart.partNumber = partNumbers n) :
    ∃ completed, (writeParts receipt path id true (n + 1) bytes w).device.uploads[path]? =
        some { row with completedParts := completed } ∧
      completed.map CompletedUploadPart.partNumber = partNumbers (n + bytes.length) := by
  induction bytes generalizing n w row with
  | nil => exact ⟨row.completedParts, hrow, hcompleted⟩
  | cons first bytes ih =>
      unfold writeParts
      have hlength : n + (first :: bytes).length = n + 1 + bytes.length := by
        rw [List.length_cons]
        omega
      rw [hlength]
      let part : CompletedUploadPart := ⟨(n + 1 : ℕ), (receipt first).1, (receipt first).2⟩
      let next := { row with completedParts := insertPart part row.completedParts }
      have hnext : next.completedParts.map CompletedUploadPart.partNumber = partNumbers (n + 1) :=
        insertPart_next hcompleted rfl
      have hrecorded : (w.device.recordUploadPart path part).uploads[path]? = some next := by
        simp [DeviceState.recordUploadPart, hrow, next]
      have hrest := ih (w := { w with
        multiparts := w.multiparts.insert id ((w.stored id).take n ++ [first])
        device := w.device.recordUploadPart path part }) hrecorded hnext
      obtain ⟨completed, hcompleted, hnumbers⟩ := hrest
      exact ⟨completed, hcompleted, hnumbers⟩

end UploadWorld

end Writes

end FileMirror
