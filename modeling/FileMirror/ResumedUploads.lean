import FileMirror.Framing

set_option autoImplicit false

namespace FileMirror

namespace UploadWorld

/-- The store has these parts of the upload, or one that is not recorded. -/
def Holds (w : UploadWorld) (u : Upload) (partSize recorded : ℕ) : Prop :=
  ∃ n parts e, (StreamingEncryptor.new u.nonce u.path).encryptParts (fun _ => u.content) partSize n =
      some (parts, e) ∧ recorded ≤ parts.length ∧ parts.length ≤ recorded + 1 ∧
    w.stored u.uploadId = objectParts u.nonce parts

/-- So many parts are recorded of an upload of this content. -/
structure Interrupted (hash : List UInt8 → ContentHash) (w : UploadWorld) (u : Upload)
    (partSize recorded : ℕ) : Prop where
  row : ∃ completed, w.device.uploads[u.path]? =
      some ⟨u.path, u.uploadId, partSize, hash u.content, u.nonce, completed⟩ ∧
    completed.map CompletedUploadPart.partNumber = partNumbers recorded
  parts : w.Holds u partSize recorded

end UploadWorld

section Sealing

variable {content : List UInt8} {e next : StreamingEncryptor} {partSize n : ℕ}
  {parts : List EncryptedPart}

theorem frameCount_of_counted {nonce bytes : List UInt8} {aad : String}
    (h : Counted (chunkFrames nonce aad 0 bytes)) : frameCount bytes.length ≤ counterMax + 1 := by
  have hstreams : Streams (chunkFrames nonce aad 0 bytes) := streams_chunkFrames
  rw [← length_chunkFrames nonce aad 0 bytes]
  by_contra hlong
  have hlt : counterMax < (chunkFrames nonce aad 0 bytes).length := by omega
  have hplace := position_of_placed (map_position_chunkFrames nonce aad 0 bytes) hlt
  have hopen : (chunkFrames nonce aad 0 bytes)[counterMax].last = false := by
    rw [← Bool.not_eq_true, hstreams.last_iff hlt]
    omega
  have hbelow := h _ (List.getElem_mem hlt) hopen
  omega

theorem fillPart_longer {contents : ℕ → List UInt8} {fuel : ℕ} {frames filled : List Frame}
    (h : StreamingEncryptor.fillPart contents partSize fuel e frames = some (filled, next)) :
    frames.length ≤ filled.length ∧ (0 < fuel → frames.length < filled.length) := by
  induction fuel generalizing e frames with
  | zero =>
      cases h
      exact ⟨Nat.le_refl _, fun hpos => absurd hpos (Nat.lt_irrefl 0)⟩
  | succ fuel ih =>
      have hlen : ∀ frame, (frames ++ [frame]).length = frames.length + 1 := fun frame => by
        rw [List.length_append, List.length_singleton]
      unfold StreamingEncryptor.fillPart at h
      generalize e.readFrame contents = read at h
      obtain ⟨frame, e'⟩ := read
      simp only at h
      split_ifs at h
      · cases h
        have hone := hlen frame
        omega
      · cases h
        have hone := hlen frame
        omega
      · have hmore := (ih h).1
        rw [hlen] at hmore
        omega

theorem encryptParts_ends {contents : ℕ → List UInt8}
    (h : e.encryptParts contents partSize n = some (parts, next)) :
    next.finished = true ∨ n ≤ (parts.flatMap EncryptedPart.frames).length := by
  induction n generalizing e parts with
  | zero => exact .inr (Nat.zero_le _)
  | succ n ih =>
      unfold StreamingEncryptor.encryptParts StreamingEncryptor.encryptNextPart at h
      by_cases hfinished : e.finished = true
      · rw [if_pos hfinished] at h
        cases h
        exact .inl hfinished
      · rw [if_neg hfinished] at h
        cases hfill : StreamingEncryptor.fillPart contents partSize (partSize + 1) e [] with
        | none =>
            rw [hfill] at h
            cases h
        | some filled =>
            obtain ⟨frames, e'⟩ := filled
            rw [hfill] at h
            simp only [Option.map_some, Option.map_eq_some_iff, Prod.mk.injEq] at h
            obtain ⟨⟨rest, last⟩, hrest, rfl, rfl⟩ := h
            have hone : 0 < (EncryptedPart.mk frames).frames.length :=
              (fillPart_longer hfill).2 (Nat.succ_pos _)
            obtain hended | hmore := ih hrest
            · exact .inl hended
            · right
              change n + 1 ≤ ((EncryptedPart.mk frames :: rest).flatMap EncryptedPart.frames).length
              rw [List.flatMap_cons, List.length_append]
              omega

theorem encryptParts_uncounted (hcounted : ¬ Counted (e.remaining content))
    (hn : (e.remaining content).length < n) :
    e.encryptParts (fun _ => content) partSize n = none := by
  obtain hnone | ⟨⟨parts, next⟩, hsome⟩ :=
    Option.eq_none_or_eq_some (e.encryptParts (fun _ => content) partSize n)
  · exact hnone
  · obtain ⟨hframes, hparts⟩ := encryptParts_still hsome
    obtain hfinished | hshort := encryptParts_ends hsome
    · rw [remaining_finished hfinished, List.append_nil] at hframes
      exact absurd (hframes ▸ hparts) hcounted
    · have hlen := congrArg List.length hframes
      rw [List.length_append] at hlen
      omega

end Sealing

section Sending

variable {hash : List UInt8 → ContentHash} {objectKey : String → ContentHash → String}
  {receipt : List StoredByte → String × String} {w t : UploadWorld} {u : Upload}
  {partSize k n : ℕ} {parts : List EncryptedPart} {e : StreamingEncryptor}
  {completed : List CompletedUploadPart}

namespace UploadWorld

theorem length_writeParts_stored (receipt : List StoredByte → String × String) (tracked : Bool)
    (path : String) {id : String} {bytes : List (List StoredByte)} (hlen : k ≤ (w.stored id).length) (hne : bytes ≠ []) :
    ((writeParts receipt path id tracked (k + 1) bytes w).stored id).length = k + bytes.length := by
  induction bytes generalizing k w with
  | nil => exact absurd rfl hne
  | cons first bytes ih =>
      unfold writeParts
      have hfirst : ((w.stored id).take k ++ [first]).length = k + 1 := by
        rw [List.length_append, List.length_take, List.length_singleton]
        omega
      rw [List.length_cons]
      by_cases hnil : bytes = []
      · subst hnil
        simp only [writeParts, stored, StringMap.getElem?_insert, if_true, Option.getD_some,
          Nat.add_sub_cancel] at hfirst ⊢
        exact hfirst
      · rw [ih ?_ hnil]
        · omega
        · simp only [stored, StringMap.getElem?_insert, if_true, Option.getD_some,
            Nat.add_sub_cancel] at hfirst ⊢
          exact hfirst.ge

/-- Parts that were there in full, in part or by one more than is recorded are those of the
encryption that goes on with them. -/
theorem Holds.writeParts_stored (receipt : List StoredByte → String × String) (tracked : Bool)
    (h : w.Holds u partSize k)
    (hparts : (StreamingEncryptor.new u.nonce u.path).encryptParts (fun _ => u.content) partSize n =
      some (parts, e)) (hlong : k ≤ parts.length) :
    (writeParts receipt u.path u.uploadId tracked (k + 1) ((objectParts u.nonce parts).drop k)
      w).stored u.uploadId = objectParts u.nonce parts ∨
    k = parts.length ∧ (writeParts receipt u.path u.uploadId tracked (k + 1)
      ((objectParts u.nonce parts).drop k) w) = w := by
  obtain ⟨n', before, e', hbefore, hrecorded, hone, hstored⟩ := h
  have hfront : (w.stored u.uploadId).take k = (objectParts u.nonce parts).take k := by
    rw [hstored, take_objectParts, take_objectParts]
    congr 1
    rcases Nat.le_total n n' with hle | hle
    · obtain ⟨rest, rfl⟩ := (encryptParts_mono hle hparts hbefore).1
      rw [List.take_append_of_le_length hlong]
    · obtain ⟨rest, rfl⟩ := (encryptParts_mono hle hbefore hparts).1
      rw [List.take_append_of_le_length hrecorded]
  have hlen : k ≤ (w.stored u.uploadId).length := by
    rw [hstored, length_objectParts]
    exact hrecorded
  by_cases hnil : (objectParts u.nonce parts).drop k = []
  · right
    have hcount := List.drop_eq_nil_iff.mp hnil
    rw [length_objectParts] at hcount
    rw [hnil]
    exact ⟨Nat.le_antisymm hlong hcount, rfl⟩
  · left
    have hall := length_writeParts_stored receipt tracked u.path hlen hnil
    rw [← List.take_of_length_le hall.le, UploadWorld.writeParts_stored tracked rfl hlen, hfront,
      List.take_append_drop]

theorem Holds.of_empty (h : w.stored u.uploadId = []) : w.Holds u partSize 0 :=
  ⟨0, [], _, rfl, Nat.le_refl _, Nat.zero_le _, h⟩

theorem Holds.sendMultipart_still (hash : List UInt8 → ContentHash)
    (objectKey : String → ContentHash → String) (receipt : List StoredByte → String × String)
    (tracked : Bool) (h : w.Holds u partSize k)
    (hnonce : u.nonce.length = nonceSize) (hsize : u.size = u.content.length)
    (hcompleted : completed.map CompletedUploadPart.partNumber = partNumbers k)
    (hparts : (StreamingEncryptor.new u.nonce u.path).encryptParts (fun _ => u.content) partSize n =
      some (parts, e)) (hfinished : e.finished = true) :
    ∃ t, w.sendMultipart hash objectKey receipt u partSize completed tracked
        ⟨fun _ => u.content, n, .completed⟩ = some t ∧
      t.bucket = w.bucket.insert (objectKey u.path (hash u.content))
        (u.nonce.map .plain ++ parts.flatMap EncryptedPart.ciphertext) ∧
      t.stored u.uploadId = objectParts u.nonce parts ∧
      (tracked = true → t.device.uploads[u.path]? = none) ∧
      t.finished = w.finished ++ [(u.path, ⟨u.size, u.mtimeNs, hash u.content,
        objectKey u.path (hash u.content)⟩)] := by
  have hlong : k ≤ parts.length := by
    obtain ⟨n', before, e', hbefore, hrecorded, _, _⟩ := h
    rcases Nat.le_total n n' with hle | hle
    · rw [(encryptParts_mono hle hparts hbefore).2 hfinished]
      exact hrecorded
    · exact hrecorded.trans (encryptParts_mono hle hbefore hparts).1.length_le
  have hlength := (decryptBytes_still hnonce hparts hfinished).2
  have hobject : (objectParts u.nonce parts).flatten =
      u.nonce.map .plain ++ parts.flatMap EncryptedPart.ciphertext :=
    flatten_objectParts (encryptParts_ne_nil hparts hfinished)
  have hnumbers : k + ((objectParts u.nonce parts).drop k).length = parts.length := by
    rw [List.length_drop, length_objectParts]
    omega
  unfold sendMultipart
  rw [nextPartNumber_eq hcompleted, hparts]
  dsimp only
  generalize hsent : writeParts receipt u.path u.uploadId tracked (k + 1)
    ((objectParts u.nonce parts).drop k) w = sent
  have hbucket : sent.bucket = w.bucket := hsent ▸ (writeParts_sameBut tracked).bucket
  have hfinishedBefore : sent.finished = w.finished := hsent ▸ (writeParts_sameBut tracked).finished
  have hstored : sent.stored u.uploadId = objectParts u.nonce parts := by
    obtain hall | ⟨hcount, hsame⟩ := h.writeParts_stored receipt tracked hparts hlong
    · exact hsent ▸ hall
    · obtain ⟨n', before, e', hbefore, hrecorded, _, hheld⟩ := h
      have hwhole : before = parts := by
        rcases Nat.le_total n n' with hle | hle
        · exact ((encryptParts_mono hle hparts hbefore).2 hfinished).symm
        · have hfront := (encryptParts_mono hle hbefore hparts).1
          exact hfront.eq_of_length (Nat.le_antisymm hfront.length_le (hcount ▸ hrecorded))
      rw [← hsent, hsame, hheld, hwhole]
  have hassembled : assemble (sent.multiparts[u.uploadId]?.getD [])
      (completed.map CompletedUploadPart.partNumber ++
        (List.range ((objectParts u.nonce parts).drop k).length).map fun i =>
          ((k + 1 + i : ℕ) : ℤ)) =
      u.nonce.map .plain ++ parts.flatMap EncryptedPart.ciphertext := by
    change assemble (sent.stored u.uploadId) _ = _
    rw [hcompleted, ← partNumbers_add, hnumbers, hstored,
      assemble_partNumbers length_objectParts.ge, List.take_of_length_le length_objectParts.le,
      hobject]
  rw [if_pos hfinished, hassembled, if_pos (by rw [hlength, hsize])]
  refine ⟨_, rfl, ?_, ?_, fun htracked => ?_, ?_⟩
  · rw [← hbucket]
    cases tracked <;> rfl
  · cases tracked <;> exact hstored
  · subst htracked
    simp [put, UploadWorld.clearUpload, DeviceState.clearUpload]
  · rw [← hfinishedBefore]
    cases tracked <;> rfl

theorem Interrupted.sendMultipart (h : w.Interrupted hash u partSize k)
    (hrow : w.device.uploads[u.path]? =
      some ⟨u.path, u.uploadId, partSize, hash u.content, u.nonce, completed⟩)
    (hsend : w.sendMultipart hash objectKey receipt u partSize completed true
      ⟨fun _ => u.content, n, .interrupted⟩ = some t)
    (hparts : (StreamingEncryptor.new u.nonce u.path).encryptParts (fun _ => u.content) partSize n =
      some (parts, e)) : t.Interrupted hash u partSize (max k parts.length) := by
  obtain ⟨⟨recorded, hrecorded, hnumbers⟩, hholds⟩ := h
  rw [hrow] at hrecorded
  cases hrecorded
  unfold UploadWorld.sendMultipart at hsend
  rw [nextPartNumber_eq hnumbers, hparts] at hsend
  cases hsend
  obtain ⟨added, hadded, hcount⟩ := writeParts_row receipt u.uploadId
    ((objectParts u.nonce parts).drop k) hrow hnumbers
  have hmax : k + ((objectParts u.nonce parts).drop k).length = max k parts.length := by
    rw [List.length_drop, length_objectParts]
    omega
  refine ⟨⟨added, hadded, hmax ▸ hcount⟩, ?_⟩
  by_cases hlong : k ≤ parts.length
  · obtain hall | ⟨hsame, hnone⟩ := hholds.writeParts_stored receipt true hparts hlong
    · exact ⟨n, parts, e, hparts, by omega, by omega, hall⟩
    · rw [hnone, ← hsame, Nat.max_self]
      exact hholds
  · have hnil : (objectParts u.nonce parts).drop k = [] := by
      rw [List.drop_eq_nil_iff, length_objectParts]
      omega
    rw [hnil, Nat.max_eq_left (by omega)]
    exact hholds

theorem Interrupted.resumeUpload (h : w.Interrupted hash u partSize k) (mtimeNs : ℤ)
    (hresume : w.resumeUpload hash objectKey receipt u.path mtimeNs u.content
      ⟨fun _ => u.content, n, .interrupted⟩ = some t)
    (hparts : (StreamingEncryptor.new u.nonce u.path).encryptParts (fun _ => u.content) partSize n =
      some (parts, e)) : t.Interrupted hash u partSize (max k parts.length) := by
  obtain ⟨completed, hrow, _⟩ := h.row
  unfold UploadWorld.resumeUpload at hresume
  rw [hrow] at hresume
  dsimp only at hresume
  rw [if_pos rfl] at hresume
  have hsame : w.Interrupted hash { u with size := u.content.length, mtimeNs } partSize k :=
    ⟨h.row, h.parts⟩
  have hnext := hsame.sendMultipart hrow hresume hparts
  exact ⟨hnext.row, hnext.parts⟩

theorem interrupted_uploadFile (hnew : w.device.uploads[u.path]? = none)
    (hfits : u.content.length < 2 ^ 64) (hlarge : maxSingleShotPutSize < u.content.length)
    (hupload : w.uploadFile hash objectKey receipt u.hashed true
      ⟨fun _ => u.content, n, .interrupted⟩ = some t)
    (hparts : (StreamingEncryptor.new u.nonce u.path).encryptParts (fun _ => u.content)
      (getChunkSize u.content.length) n = some (parts, e)) :
    t.Interrupted hash u (getChunkSize u.content.length) parts.length := by
  unfold UploadWorld.uploadFile at hupload
  have hmulti : ¬ u.hashed.size ≤ maxSingleShotPutSize := Nat.not_le.mpr hlarge
  rw [if_neg hmulti] at hupload
  dsimp only at hupload
  rw [if_pos rfl] at hupload
  generalize hbegun : ({ w with
    device := w.device.recordUploadStart u.hashed.path u.hashed.uploadId
      (getChunkSize u.hashed.size) (hash u.hashed.content) u.hashed.nonce
    multiparts := w.multiparts.insert u.hashed.uploadId [] } : UploadWorld) = begun at hupload
  have hrow : begun.device.uploads[u.path]? =
      some ⟨u.path, u.uploadId, getChunkSize u.content.length, hash u.content, u.nonce, []⟩ := by
    rw [← hbegun]
    simp [DeviceState.recordUploadStart, Upload.hashed, hnew,
      Nat.min_eq_left (getChunkSize_le hfits)]
  have hstored : begun.stored u.uploadId = [] := by
    rw [← hbegun]
    simp [stored, Upload.hashed]
  have hnone : begun.Interrupted hash u.hashed (getChunkSize u.content.length) 0 :=
    ⟨⟨[], hrow, rfl⟩, .of_empty hstored⟩
  have hnext := hnone.sendMultipart hrow hupload hparts
  rw [Nat.zero_max] at hnext
  exact ⟨hnext.row, hnext.parts⟩

theorem Interrupted.unrecorded (h : w.Interrupted hash u partSize k)
    (hparts : (StreamingEncryptor.new u.nonce u.path).encryptParts (fun _ => u.content) partSize n =
      some (parts, e)) (hone : parts.length = k + 1) :
    UploadWorld.Interrupted hash
      { w with multiparts := w.multiparts.insert u.uploadId (objectParts u.nonce parts) } u partSize
      k := by
  refine ⟨h.row, n, parts, e, hparts, by omega, by omega, ?_⟩
  simp [stored]

theorem encryptParts_whole (partSize : ℕ) {content : List UInt8} (nonce : List UInt8)
    (path : String) (hcount : frameCount content.length ≤ counterMax + 1) (hn : frameCount content.length < n) :
    ∃ parts e, (StreamingEncryptor.new nonce path).encryptParts (fun _ => content) partSize n =
        some (parts, e) ∧ e.finished = true ∧
      parts.flatMap EncryptedPart.ciphertext = sealAll (chunkFrames nonce path 0 content) := by
  have hall : (StreamingEncryptor.new nonce path).remaining content =
      chunkFrames nonce path 0 content := rfl
  have hcounted : Counted ((StreamingEncryptor.new nonce path).remaining content) :=
    hall ▸ counted_chunkFrames hcount
  have hlen : ((StreamingEncryptor.new nonce path).remaining content).length < n := by
    rwa [hall, length_chunkFrames]
  obtain ⟨parts, e, hparts, hfinished, _, _⟩ := encryptParts_fills partSize hcounted hlen
  obtain ⟨hframes, _⟩ := encryptParts_still hparts
  rw [remaining_finished hfinished, List.append_nil, hall] at hframes
  exact ⟨parts, e, hparts, hfinished, by rw [hframes, sealAll_flatMap]⟩

theorem encryptParts_too_long (partSize : ℕ) {content : List UInt8} (nonce : List UInt8)
    (path : String) (hcount : ¬ frameCount content.length ≤ counterMax + 1) (hn : frameCount content.length < n) :
    (StreamingEncryptor.new nonce path).encryptParts (fun _ => content) partSize n = none := by
  have hlen : (chunkFrames nonce path 0 content).length < n := by
    rwa [length_chunkFrames]
  exact encryptParts_uncounted (fun hcounted => hcount (frameCount_of_counted hcounted)) hlen

theorem sendMultipart_unsealed (hash : List UInt8 → ContentHash)
    (objectKey : String → ContentHash → String) (receipt : List StoredByte → String × String)
    (w : UploadWorld) (completed : List CompletedUploadPart) (tracked : Bool)
    (hnone : (StreamingEncryptor.new u.nonce u.path).encryptParts (fun _ => u.content) partSize n =
      none) :
    ∃ t, w.sendMultipart hash objectKey receipt u partSize completed tracked
        ⟨fun _ => u.content, n, .completed⟩ = some t ∧
      t.bucket = w.bucket ∧ (tracked = true → t.device.uploads[u.path]? = none) := by
  unfold sendMultipart
  dsimp only
  rw [hnone]
  refine ⟨_, rfl, ?_, fun htracked => ?_⟩
  · cases tracked <;> rfl
  · subst htracked
    simp [UploadWorld.clearUpload, DeviceState.clearUpload]

theorem uploadFile_still (hash : List UInt8 → ContentHash)
    (objectKey : String → ContentHash → String) (receipt : List StoredByte → String × String)
    (w : UploadWorld) (tracked : Bool)
    (hnonce : u.nonce.length = nonceSize) (hn : frameCount u.content.length < n) :
    ∃ t, w.uploadFile hash objectKey receipt u.hashed tracked
        ⟨fun _ => u.content, n, .completed⟩ = some t ∧
      t.bucket = if frameCount u.content.length ≤ counterMax + 1
        then w.bucket.insert (objectKey u.path (hash u.content))
          (u.nonce.map .plain ++ sealAll (chunkFrames u.nonce u.path 0 u.content))
        else w.bucket := by
  unfold UploadWorld.uploadFile
  by_cases hsingle : u.hashed.size ≤ maxSingleShotPutSize
  · rw [if_pos hsingle]
    dsimp only
    by_cases hcount : frameCount u.content.length ≤ counterMax + 1
    · obtain ⟨parts, e, hparts, hfinished, hbytes⟩ :=
        encryptParts_whole u.hashed.size u.nonce u.path hcount hn
      have hlength := (decryptBytes_still hnonce hparts hfinished).2
      have hall : (StreamingEncryptor.new u.hashed.nonce u.hashed.path).encryptParts
          (fun _ => u.content) u.hashed.size n = some (parts, e) := hparts
      have hobject : (u.hashed.nonce.map StoredByte.plain ++
          parts.flatMap EncryptedPart.ciphertext).length = ciphertextLen u.hashed.size := by
        rw [List.length_append, List.length_map]
        change u.nonce.length + _ = ciphertextLen u.content.length
        rw [hnonce, hlength]
      rw [if_pos hcount, hall]
      dsimp only
      rw [if_pos hfinished, if_pos hobject]
      exact ⟨_, rfl, by rw [← hbytes]; rfl⟩
    · have hnone : (StreamingEncryptor.new u.hashed.nonce u.hashed.path).encryptParts
          (fun _ => u.content) u.hashed.size n = none :=
        encryptParts_too_long u.hashed.size u.nonce u.path hcount hn
      rw [if_neg hcount, hnone]
      exact ⟨w, rfl, rfl⟩
  · rw [if_neg hsingle]
    dsimp only
    generalize hbegun : ({ w with
      device := (if tracked = true then w.device.recordUploadStart u.hashed.path u.hashed.uploadId
        (getChunkSize u.hashed.size) (hash u.hashed.content) u.hashed.nonce else w.device)
      multiparts := w.multiparts.insert u.hashed.uploadId [] } : UploadWorld) = begun
    have hstored : begun.stored u.hashed.uploadId = [] := by
      rw [← hbegun]
      simp [stored]
    have hbucket : begun.bucket = w.bucket := by
      rw [← hbegun]
    by_cases hcount : frameCount u.content.length ≤ counterMax + 1
    · obtain ⟨parts, e, hparts, hfinished, hbytes⟩ :=
        encryptParts_whole (getChunkSize u.hashed.size) u.nonce u.path hcount hn
      have hnumbers : ([] : List CompletedUploadPart).map CompletedUploadPart.partNumber =
          partNumbers 0 := rfl
      obtain ⟨t, ht, hput, _⟩ := (Holds.of_empty hstored).sendMultipart_still hash objectKey receipt
        tracked hnonce rfl hnumbers hparts hfinished
      exact ⟨t, ht, by rw [if_pos hcount, hput, hbucket, hbytes]; rfl⟩
    · have hnone : (StreamingEncryptor.new u.hashed.nonce u.hashed.path).encryptParts
          (fun _ => u.hashed.content) (getChunkSize u.hashed.size) n = none :=
        encryptParts_too_long (getChunkSize u.hashed.size) u.nonce u.path hcount hn
      obtain ⟨t, ht, hput, _⟩ :=
        sendMultipart_unsealed hash objectKey receipt begun [] tracked hnone
      exact ⟨t, ht, by rw [if_neg hcount, hput, hbucket]⟩

theorem encryptParts_one (partSize : ℕ) {content : List UInt8} (nonce : List UInt8) (path : String)
    (hcount : frameCount content.length ≤ counterMax + 1) :
    ∃ part e, (StreamingEncryptor.new nonce path).encryptParts (fun _ => content) partSize 1 =
      some ([part], e) := by
  have hcounted : Counted ((StreamingEncryptor.new nonce path).remaining content) :=
    counted_chunkFrames hcount
  obtain ⟨next, hpart, _⟩ := encryptNextPart_takes partSize rfl hcounted
  unfold StreamingEncryptor.encryptParts
  rw [hpart]
  exact ⟨_, _, rfl⟩

theorem upload_interrupts (hash : List UInt8 → ContentHash)
    (objectKey : String → ContentHash → String) (receipt : List StoredByte → String × String)
    (hnew : w.device.uploads[u.path]? = none) (hlarge : maxSingleShotPutSize < u.content.length)
    (hcount : frameCount u.content.length ≤ counterMax + 1) :
    ∃ t, w.step hash objectKey receipt (.upload u ⟨fun _ => u.content, 1, .interrupted⟩) = some t ∧
      t.Interrupted hash u (getChunkSize u.content.length) 1 ∧ t.bucket = w.bucket ∧
      t.finished = w.finished ∧ t.logged = w.logged := by
  have hfits : u.content.length < 2 ^ 64 := by
    unfold frameCount counterMax chunkSize at hcount
    omega
  obtain ⟨part, e, hparts⟩ := encryptParts_one (getChunkSize u.content.length) u.nonce u.path hcount
  have hupload : ∃ t, w.uploadFile hash objectKey receipt u.hashed true
      ⟨fun _ => u.content, 1, .interrupted⟩ = some t ∧ t.bucket = w.bucket ∧
      t.finished = w.finished ∧ t.logged = w.logged := by
    have hall : (StreamingEncryptor.new u.hashed.nonce u.hashed.path).encryptParts
        (fun _ => u.content) (getChunkSize u.hashed.size) 1 = some ([part], e) := hparts
    have hmulti : ¬ u.hashed.size ≤ maxSingleShotPutSize := Nat.not_le.mpr hlarge
    unfold UploadWorld.uploadFile UploadWorld.sendMultipart
    rw [if_neg hmulti]
    dsimp only
    rw [hall]
    dsimp only
    generalize hsent : writeParts receipt _ _ _ _ _ _ = sent
    have hsame := hsent ▸ writeParts_sameBut true
    exact ⟨sent, rfl, hsame.bucket, hsame.finished, hsame.logged⟩
  obtain ⟨t, ht, hsame⟩ := hupload
  refine ⟨t, ?_, interrupted_uploadFile hnew hfits hlarge ht hparts, hsame⟩
  simp only [UploadWorld.step, hnew, Option.isSome_none]
  exact ht

theorem Interrupted.completes (objectKey : String → ContentHash → String)
    (receipt : List StoredByte → String × String) (h : w.Interrupted hash u partSize k) (mtimeNs : ℤ)
    (hnonce : u.nonce.length = nonceSize) (hcount : frameCount u.content.length ≤ counterMax + 1)
    (hn : frameCount u.content.length < n) :
    ∃ t, w.resumeUpload hash objectKey receipt u.path mtimeNs u.content
        ⟨fun _ => u.content, n, .completed⟩ = some t ∧
      t.finished = w.finished ++ [(u.path, ⟨u.content.length, mtimeNs, hash u.content,
        objectKey u.path (hash u.content)⟩)] := by
  obtain ⟨⟨completed, hrow, hnumbers⟩, hholds⟩ := h
  obtain ⟨parts, e, hparts, hfinished, _⟩ := encryptParts_whole partSize u.nonce u.path hcount hn
  have hsame : w.Holds { u with size := u.content.length, mtimeNs } partSize k := hholds
  obtain ⟨t, ht, _, _, _, hlogs⟩ :=
    hsame.sendMultipart_still hash objectKey receipt true hnonce rfl hnumbers hparts hfinished
  refine ⟨t, ?_, hlogs⟩
  unfold UploadWorld.resumeUpload
  rw [hrow]
  dsimp only
  rw [if_pos rfl]
  exact ht

end UploadWorld

end Sending

/-- However many parts are recorded and whether or not one more is there, the upload that is gone on
with leaves the object that `upload_file` leaves, and the parts of its multipart upload. -/
theorem resumed_as_uninterrupted (hash : List UInt8 → ContentHash)
    (objectKey : String → ContentHash → String) (receipt : List StoredByte → String × String)
    {w : UploadWorld} {u : Upload} {partSize recorded n : ℕ} (mtimeNs : ℤ)
    (hnonce : u.nonce.length = nonceSize) (h : w.Interrupted hash u partSize recorded)
    (hn : frameCount u.content.length < n) :
    ∃ resumed, w.resumeUpload hash objectKey receipt u.path mtimeNs u.content
        ⟨fun _ => u.content, n, .completed⟩ = some resumed ∧
      resumed.device.uploads[u.path]? = none ∧
      (∀ (other : UploadWorld) (tracked : Bool), other.bucket = w.bucket →
        ∃ whole, other.uploadFile hash objectKey receipt u.hashed tracked
            ⟨fun _ => u.content, n, .completed⟩ = some whole ∧ resumed.bucket = whole.bucket) ∧
      (frameCount u.content.length ≤ counterMax + 1 →
        (∀ (other : UploadWorld) (tracked : Bool), other.stored u.uploadId = [] →
          ∃ whole, other.sendMultipart hash objectKey receipt u.hashed partSize [] tracked
              ⟨fun _ => u.content, n, .completed⟩ = some whole ∧
            resumed.stored u.uploadId = whole.stored u.uploadId) ∧
        ∃ object, resumed.bucket[objectKey u.path (hash u.content)]? = some object ∧
          object = u.nonce.map .plain ++ sealAll (chunkFrames u.nonce u.path 0 u.content) ∧
          object.length = ciphertextLen u.content.length) := by
  obtain ⟨⟨completed, hrow, hnumbers⟩, hholds⟩ := h
  have hresume : ∀ sending, w.resumeUpload hash objectKey receipt u.path mtimeNs u.content sending =
      w.sendMultipart hash objectKey receipt { u with size := u.content.length, mtimeNs } partSize
        completed true sending := by
    intro sending
    unfold UploadWorld.resumeUpload
    rw [hrow]
    dsimp only
    rw [if_pos rfl]
  rw [hresume]
  by_cases hcount : frameCount u.content.length ≤ counterMax + 1
  · obtain ⟨parts, e, hparts, hfinished, hbytes⟩ :=
      UploadWorld.encryptParts_whole partSize u.nonce u.path hcount hn
    have hsame : w.Holds { u with size := u.content.length, mtimeNs } partSize recorded := hholds
    obtain ⟨resumed, hresumed, hbucket, hstored, hcleared, _⟩ :=
      hsame.sendMultipart_still hash objectKey receipt true hnonce rfl hnumbers hparts hfinished
    refine ⟨resumed, hresumed, hcleared rfl, fun other tracked hother => ?_, fun _ => ⟨?_, ?_⟩⟩
    · obtain ⟨whole, hwhole, hput⟩ := UploadWorld.uploadFile_still hash objectKey receipt other
        tracked hnonce hn
      refine ⟨whole, hwhole, ?_⟩
      rw [hput, if_pos hcount, hbucket, hother, hbytes]
    · intro other tracked hother
      have hempty : other.Holds u.hashed partSize 0 := .of_empty hother
      have hnone : ([] : List CompletedUploadPart).map CompletedUploadPart.partNumber =
          partNumbers 0 := rfl
      obtain ⟨whole, hwhole, _, hparted, _⟩ := hempty.sendMultipart_still hash objectKey receipt
        tracked hnonce rfl hnone hparts hfinished
      exact ⟨whole, hwhole, hstored.trans hparted.symm⟩
    · refine ⟨_, ?_, rfl, ?_⟩
      · rw [hbucket, hbytes, StringMap.getElem?_insert, if_pos rfl]
      · rw [List.length_append, List.length_map, hnonce, length_sealAll_chunkFrames]
  · have hnone : (StreamingEncryptor.new u.nonce u.path).encryptParts (fun _ => u.content) partSize
        n = none := UploadWorld.encryptParts_too_long partSize u.nonce u.path hcount hn
    have hunsealed := UploadWorld.sendMultipart_unsealed hash objectKey receipt w completed true
      (u := { u with size := u.content.length, mtimeNs }) hnone
    obtain ⟨resumed, hresumed, hbucket, hcleared⟩ := hunsealed
    refine ⟨resumed, hresumed, hcleared rfl, fun other tracked hother => ?_, fun hfits =>
      absurd hfits hcount⟩
    obtain ⟨whole, hwhole, hput⟩ := UploadWorld.uploadFile_still hash objectKey receipt other tracked
      hnonce hn
    refine ⟨whole, hwhole, ?_⟩
    rw [hput, if_neg hcount, hbucket, hother]

def sampleHash (bytes : List UInt8) : ContentHash :=
  Fin.ofNat (2 ^ 256) (bytes.foldl (fun n byte => 256 * n + byte.toNat + 1) 0)

def sampleKey (path : String) (hash : ContentHash) : String := path ++ "/" ++ toString hash.val

def sampleReceipt (_ : List StoredByte) : String × String := ("etag", "checksum")

def idleUploads : UploadWorld where
  device := { deviceId := "phone", deviceName := "phone", files := ∅, uploads := ∅, lamport := 0,
              manifestGeneration := 0 }
  bucket := ∅
  multiparts := ∅
  finished := []
  logged := []

def largeFile (byte : UInt8) : List UInt8 := List.replicate (maxSingleShotPutSize + 1) byte

theorem large_largeFile (byte : UInt8) : chunkSize < (largeFile byte).length ∧
    frameCount (largeFile byte).length ≤ counterMax + 1 ∧
    maxSingleShotPutSize < (largeFile byte).length := by
  unfold largeFile
  rw [List.length_replicate]
  decide

theorem frameCount_largeFile (byte : UInt8) : frameCount (largeFile byte).length < 1000 := by
  unfold largeFile
  rw [List.length_replicate]
  decide

def largeUpload : Upload :=
  ⟨"a", 0, 5, largeFile 1, List.replicate nonceSize 0, "id"⟩

theorem largeUpload_interrupted : ∃ w, idleUploads.step sampleHash sampleKey sampleReceipt
      (.upload largeUpload ⟨fun _ => largeFile 1, 1, .interrupted⟩) = some w ∧
    w.Interrupted sampleHash largeUpload (getChunkSize (largeFile 1).length) 1 ∧
    w.bucket = ∅ ∧ w.finished = [] ∧ w.logged = [] := by
  obtain ⟨_, hcount, hlarge⟩ := large_largeFile 1
  have hempty : idleUploads.device.uploads[largeUpload.path]? = none := rfl
  exact UploadWorld.upload_interrupts sampleHash sampleKey sampleReceipt hempty hlarge hcount

/-- One part of two is recorded when the process dies. -/
theorem resumed_as_uninterrupted_recorded : ∃ w resumed whole,
    idleUploads.step sampleHash sampleKey sampleReceipt
        (.upload largeUpload ⟨fun _ => largeFile 1, 1, .interrupted⟩) = some w ∧
      w.Interrupted sampleHash largeUpload (getChunkSize (largeFile 1).length) 1 ∧
      w.resumeUpload sampleHash sampleKey sampleReceipt "a" 5 (largeFile 1)
        ⟨fun _ => largeFile 1, 1000, .completed⟩ = some resumed ∧
      idleUploads.uploadFile sampleHash sampleKey sampleReceipt largeUpload.hashed true
        ⟨fun _ => largeFile 1, 1000, .completed⟩ = some whole ∧
      resumed.bucket = whole.bucket ∧ resumed.device.uploads["a"]? = none := by
  obtain ⟨w, hupload, hrow, hbucket, _⟩ := largeUpload_interrupted
  obtain ⟨resumed, hresumed, hcleared, hwhole, _⟩ := resumed_as_uninterrupted sampleHash sampleKey
    sampleReceipt 5 List.length_replicate hrow (frameCount_largeFile 1)
  obtain ⟨whole, huploaded, hsame⟩ := hwhole idleUploads true hbucket.symm
  exact ⟨w, resumed, whole, hupload, hrow, hresumed, huploaded, hsame, hcleared⟩

end FileMirror
