import FileMirror.ResumedUploads
import FileMirror.Transitions

set_option autoImplicit false

namespace FileMirror

open Transitions

/-- What the loop of `encrypt_next_part` has sealed, also where it fails in the end. -/
def StreamingEncryptor.fillSealed (contents : ℕ → List UInt8) (partSize : ℕ) :
    ℕ → StreamingEncryptor → List Frame → List Frame
  | 0, _, frames => frames
  | fuel + 1, e, frames =>
      let (frame, next) := e.readFrame contents
      let more := frames ++ [frame]
      if frame.last then more
      else if counterMax ≤ e.position then frames
      else if partSize ≤ (sealAll more).length then more
      else fillSealed contents partSize fuel next more

/-- All that is sealed for the first `n` parts, or for fewer where the file ends or one fails. -/
def StreamingEncryptor.sealedFrames (contents : ℕ → List UInt8) (partSize : ℕ) :
    ℕ → StreamingEncryptor → List Frame
  | 0, _ => []
  | n + 1, e =>
      if e.finished then []
      else fillSealed contents partSize (partSize + 1) e [] ++
        match e.encryptNextPart contents partSize with
        | some (_, next) => sealedFrames contents partSize n next
        | none => []

/-- A device's uploads with the nonces that were drawn and the frames that were sealed. -/
structure SealingWorld where
  world : UploadWorld
  drawn : List (List UInt8)
  frames : List Frame

section Model

variable (hash : List UInt8 → ContentHash) (objectKey : String → ContentHash → String)
  (receipt : List StoredByte → String × String)

namespace SealingWorld

def uploadSize (size : ℕ) : ℕ := if size ≤ maxSingleShotPutSize then size else getChunkSize size

def sealedBy (w : UploadWorld) : UploadStep → List Frame
  | .upload u sending =>
      (StreamingEncryptor.new u.nonce u.path).sealedFrames sending.contents
        (uploadSize u.content.length) sending.parts
  | .relocate u parts _ =>
      (StreamingEncryptor.new u.nonce u.path).sealedFrames (fun _ => u.content) (uploadSize u.size)
        parts
  | .resume path _ content sending =>
      match w.device.uploads[path]? with
      | none => []
      | some row =>
          if hash content = row.contentHash then
            (StreamingEncryptor.new row.nonce path).sealedFrames sending.contents row.partSize
              sending.parts
          else []
  | .log _ _ | .ends => []

def nonces : UploadStep → List (List UInt8)
  | .upload u _ | .relocate u _ _ => [u.nonce]
  | .resume .. | .log .. | .ends => []

def step (s : SealingWorld) (a : UploadStep) : Option SealingWorld :=
  (s.world.step hash objectKey receipt a).map fun w =>
    ⟨w, s.drawn ++ nonces a, s.frames ++ sealedBy hash s.world a⟩

variable {hash objectKey receipt} in
theorem step_of_world {w t : UploadWorld} {a : UploadStep} (drawn : List (List UInt8))
    (frames : List Frame) (h : w.step hash objectKey receipt a = some t) :
    step hash objectKey receipt ⟨w, drawn, frames⟩ a =
      some ⟨t, drawn ++ nonces a, frames ++ sealedBy hash w a⟩ := by
  unfold step
  rw [h]
  rfl

end SealingWorld

def DrawsFresh (s : SealingWorld) (a : UploadStep) : Prop :=
  ∀ nonce ∈ SealingWorld.nonces a, nonce ∉ s.drawn

/-- What is sealed of a file that an upload may be resumed of is what was hashed. -/
def SealsHashed (versions : Set (String × List UInt8)) (s : SealingWorld) (a : UploadStep) : Prop :=
  DrawsFresh s a ∧ match a with
    | .upload u sending =>
        (u.path, u.content) ∈ versions ∧
          (maxSingleShotPutSize < u.content.length → sending.fate = .interrupted →
            (StreamingEncryptor.new u.nonce u.path).sealedFrames sending.contents
                (getChunkSize u.content.length) sending.parts =
              (StreamingEncryptor.new u.nonce u.path).sealedFrames (fun _ => u.content)
                (getChunkSize u.content.length) sending.parts)
    | .resume path _ content sending =>
        (path, content) ∈ versions ∧ ∀ row, s.world.device.uploads[path]? = some row →
          hash content = row.contentHash →
            (StreamingEncryptor.new row.nonce path).sealedFrames sending.contents row.partSize
                sending.parts =
              (StreamingEncryptor.new row.nonce path).sealedFrames (fun _ => content) row.partSize
                sending.parts
    | .relocate .. | .log .. | .ends => True

end Model

/-- No nonce, counter and flag are those of two plaintexts. -/
def SealedOnce (frames : List Frame) : Prop :=
  ∀ f ∈ frames, ∀ g ∈ frames, f.nonce = g.nonce → f.position = g.position → f.last = g.last →
    f.plaintext = g.plaintext

/-- All that is at the store was sealed in these frames. -/
structure UploadWorld.Within (w : UploadWorld) (frames : List Frame) : Prop where
  bucket : ∀ (key : String) (object : List StoredByte), w.bucket[key]? = some object →
    ∀ f i, .sealed f i ∈ object → f ∈ frames
  parts : ∀ id, ∀ part ∈ w.stored id, ∀ f i, .sealed f i ∈ part → f ∈ frames

section Sealing

variable {contents : ℕ → List UInt8} {content : List UInt8} {e next : StreamingEncryptor}
  {partSize fuel n : ℕ} {frames filled : List Frame} {parts : List EncryptedPart} {frame : Frame}

theorem fillSealed_placed (contents : ℕ → List UInt8) (partSize fuel : ℕ) (e : StreamingEncryptor)
    (frames : List Frame) :
    ∃ new, StreamingEncryptor.fillSealed contents partSize fuel e frames = frames ++ new ∧
      new.map Frame.position = List.range' e.position new.length ∧
      (∀ frame ∈ new, frame.nonce = e.nonce ∧ frame.aad = e.aad) := by
  induction fuel generalizing e frames with
  | zero => exact ⟨[], (List.append_nil _).symm, rfl, nofun⟩
  | succ fuel ih =>
      have hframe : (e.readFrame contents).1.nonce = e.nonce ∧
          (e.readFrame contents).1.aad = e.aad ∧ (e.readFrame contents).1.position = e.position ∧
          (e.readFrame contents).2.position = e.position + 1 ∧
          (e.readFrame contents).2.nonce = e.nonce ∧ (e.readFrame contents).2.aad = e.aad :=
        ⟨rfl, rfl, rfl, rfl, rfl, rfl⟩
      unfold StreamingEncryptor.fillSealed
      generalize e.readFrame contents = read at hframe
      obtain ⟨frame, next⟩ := read
      obtain ⟨hnonce, haad, hposition, hnext, hnextNonce, hnextAad⟩ := hframe
      dsimp only at hnonce haad hposition hnext hnextNonce hnextAad ⊢
      have hone : [frame].map Frame.position = List.range' e.position [frame].length := by
        rw [List.map_singleton, hposition]
        rfl
      have hfirst : ∀ f ∈ [frame], f.nonce = e.nonce ∧ f.aad = e.aad := by
        intro f hf
        rw [List.mem_singleton.mp hf]
        exact ⟨hnonce, haad⟩
      split_ifs with hlast hcounter hfull
      · exact ⟨[frame], rfl, hone, hfirst⟩
      · exact ⟨[], (List.append_nil _).symm, rfl, nofun⟩
      · exact ⟨[frame], rfl, hone, hfirst⟩
      · obtain ⟨new, hnew, hplaced, hsame⟩ := ih next (frames ++ [frame])
        refine ⟨frame :: new, by rw [hnew, List.append_assoc]; rfl, ?_, ?_⟩
        · rw [List.map_cons, hplaced, hposition, hnext, List.length_cons, List.range'_succ]
        · rw [hnextNonce, hnextAad] at hsame
          exact List.forall_mem_cons.mpr ⟨⟨hnonce, haad⟩, hsame⟩

theorem fillPart_sealed
    (h : StreamingEncryptor.fillPart contents partSize fuel e frames = some (filled, next)) :
    StreamingEncryptor.fillSealed contents partSize fuel e frames = filled ∧
      next.position + frames.length = e.position + filled.length ∧ next.nonce = e.nonce ∧
      next.aad = e.aad := by
  induction fuel generalizing e frames with
  | zero =>
      cases h
      exact ⟨rfl, rfl, rfl, rfl⟩
  | succ fuel ih =>
      have hframe : (e.readFrame contents).2.position = e.position + 1 ∧
          (e.readFrame contents).2.nonce = e.nonce ∧ (e.readFrame contents).2.aad = e.aad :=
        ⟨rfl, rfl, rfl⟩
      unfold StreamingEncryptor.fillPart at h
      unfold StreamingEncryptor.fillSealed
      generalize e.readFrame contents = read at h hframe
      obtain ⟨frame, e'⟩ := read
      obtain ⟨hposition, hnonce, haad⟩ := hframe
      have hlen : (frames ++ [frame]).length = frames.length + 1 := by
        rw [List.length_append, List.length_singleton]
      dsimp only at h hposition hnonce haad ⊢
      split_ifs at h ⊢ with hlast hcounter hfull
      · cases h
        exact ⟨rfl, by omega, hnonce, haad⟩
      · cases h
        exact ⟨rfl, by omega, hnonce, haad⟩
      · obtain ⟨hsealed, hmore, hsameNonce, hsameAad⟩ := ih h
        exact ⟨hsealed, by omega, hsameNonce.trans hnonce, hsameAad.trans haad⟩

theorem sealedFrames_placed (contents : ℕ → List UInt8) (partSize n : ℕ)
    (e : StreamingEncryptor) :
    (e.sealedFrames contents partSize n).map Frame.position =
        List.range' e.position (e.sealedFrames contents partSize n).length ∧
      ∀ frame ∈ e.sealedFrames contents partSize n, frame.nonce = e.nonce ∧ frame.aad = e.aad := by
  induction n generalizing e with
  | zero => exact ⟨rfl, nofun⟩
  | succ n ih =>
      unfold StreamingEncryptor.sealedFrames StreamingEncryptor.encryptNextPart
      by_cases hfinished : e.finished = true
      · rw [if_pos hfinished]
        exact ⟨rfl, nofun⟩
      · rw [if_neg hfinished, if_neg hfinished]
        obtain ⟨new, hnew, hplaced, hsame⟩ := fillSealed_placed contents partSize (partSize + 1) e []
        rw [List.nil_append] at hnew
        cases hfill : StreamingEncryptor.fillPart contents partSize (partSize + 1) e [] with
        | none =>
            rw [hnew]
            dsimp only [Option.map_none]
            rw [List.append_nil]
            exact ⟨hplaced, hsame⟩
        | some result =>
            obtain ⟨filled, next⟩ := result
            obtain ⟨hsealed, hposition, hnonce, haad⟩ := fillPart_sealed hfill
            obtain ⟨hrest, hsameRest⟩ := ih next
            have hnext : next.position = e.position + new.length := by
              rw [← hnew, hsealed]
              simpa using hposition
            rw [hnonce, haad] at hsameRest
            rw [hnew]
            dsimp only [Option.map_some]
            refine ⟨?_, fun frame hframe => ?_⟩
            · rw [List.map_append, hplaced, hrest, hnext, List.length_append, List.range'_append_1]
            · exact (List.mem_append.mp hframe).elim (hsame frame) (hsameRest frame)

theorem fillSealed_still (frames : List Frame) (hopen : e.finished = false)
    (h : frame ∈ StreamingEncryptor.fillSealed (fun _ => content) partSize fuel e frames) :
    frame ∈ frames ∨ frame ∈ e.remaining content := by
  induction fuel generalizing e frames with
  | zero => exact .inl h
  | succ fuel ih =>
      obtain ⟨hremaining, hfinished, _⟩ := readFrame_still content hopen
      unfold StreamingEncryptor.fillSealed at h
      generalize e.readFrame (fun _ => content) = read at h hremaining hfinished
      obtain ⟨first, next⟩ := read
      dsimp only at h hremaining hfinished
      rw [hremaining]
      have hone : frame ∈ frames ++ [first] →
          frame ∈ frames ∨ frame ∈ first :: next.remaining content := by
        intro hmem
        obtain hmem | hmem := List.mem_append.mp hmem
        · exact .inl hmem
        · exact .inr (List.mem_singleton.mp hmem ▸ List.mem_cons_self)
      split_ifs at h with hlast hcounter hfull
      · exact hone h
      · exact .inl h
      · exact hone h
      · obtain hmem | hmem := ih _ (hfinished.symm.trans (Bool.not_eq_true _ ▸ hlast)) h
        · exact hone hmem
        · exact .inr (List.mem_cons_of_mem _ hmem)

theorem sealedFrames_still (h : frame ∈ e.sealedFrames (fun _ => content) partSize n) :
    frame ∈ e.remaining content := by
  induction n generalizing e with
  | zero => cases h
  | succ n ih =>
      unfold StreamingEncryptor.sealedFrames StreamingEncryptor.encryptNextPart at h
      by_cases hfinished : e.finished = true
      · rw [if_pos hfinished] at h
        cases h
      · have hopen : e.finished = false := Bool.not_eq_true _ ▸ hfinished
        rw [if_neg hfinished, if_neg hfinished] at h
        obtain h | h := List.mem_append.mp h
        · exact (fillSealed_still [] hopen h).resolve_left List.not_mem_nil
        · cases hfill : StreamingEncryptor.fillPart (fun _ => content) partSize (partSize + 1) e []
            with
          | none =>
              rw [hfill] at h
              cases h
          | some result =>
              obtain ⟨filled, next⟩ := result
              obtain ⟨new, _, hrest, _⟩ := fillPart_still hopen hfill
              rw [hfill] at h
              rw [hrest]
              exact List.mem_append_right _ (ih h)

theorem encryptParts_sealed (h : e.encryptParts contents partSize n = some (parts, next)) :
    parts.flatMap EncryptedPart.frames = e.sealedFrames contents partSize n := by
  induction n generalizing e parts with
  | zero =>
      cases h
      rfl
  | succ n ih =>
      unfold StreamingEncryptor.encryptParts StreamingEncryptor.encryptNextPart at h
      unfold StreamingEncryptor.sealedFrames StreamingEncryptor.encryptNextPart
      by_cases hfinished : e.finished = true
      · rw [if_pos hfinished] at h
        cases h
        rw [if_pos hfinished]
        rfl
      · rw [if_neg hfinished] at h
        rw [if_neg hfinished, if_neg hfinished]
        cases hfill : StreamingEncryptor.fillPart contents partSize (partSize + 1) e [] with
        | none =>
            rw [hfill] at h
            cases h
        | some result =>
            obtain ⟨filled, e'⟩ := result
            rw [hfill] at h
            simp only [Option.map_some, Option.map_eq_some_iff, Prod.mk.injEq] at h
            obtain ⟨⟨rest, last⟩, hrest, rfl, rfl⟩ := h
            rw [(fillPart_sealed hfill).1, List.flatMap_cons, ih hrest]
            rfl

theorem SealedOnce.of_placed {position : ℕ}
    (h : frames.map Frame.position = List.range' position frames.length) : SealedOnce frames := by
  have hnodup : (frames.map Frame.position).Nodup := h ▸ List.nodup_range'
  intro f hf g hg _ hposition _
  rw [List.inj_on_of_nodup_map hnodup hf hg hposition]

theorem SealedOnce.subset {more : List Frame} (h : SealedOnce more)
    (hsubset : ∀ frame ∈ frames, frame ∈ more) : SealedOnce frames :=
  fun f hf g hg => h f (hsubset f hf) g (hsubset g hg)

theorem SealedOnce.append {more : List Frame} (h : SealedOnce frames) (hmore : SealedOnce more)
    (hacross : ∀ f ∈ frames, ∀ g ∈ more, f.nonce = g.nonce → f.position = g.position →
      f.last = g.last → f.plaintext = g.plaintext) : SealedOnce (frames ++ more) := by
  intro f hf g hg hnonce hposition hlast
  obtain hf | hf := List.mem_append.mp hf
  · obtain hg | hg := List.mem_append.mp hg
    · exact h f hf g hg hnonce hposition hlast
    · exact hacross f hf g hg hnonce hposition hlast
  · obtain hg | hg := List.mem_append.mp hg
    · exact (hacross g hg f hf hnonce.symm hposition.symm hlast.symm).symm
    · exact hmore f hf g hg hnonce hposition hlast

end Sealing

section Store

variable {hash : List UInt8 → ContentHash} {objectKey : String → ContentHash → String}
  {receipt : List StoredByte → String × String} {w t : UploadWorld} {u : Upload} {sending : Sending}
  {frames more : List Frame} {frame : Frame} {parts : List EncryptedPart} {nonce : List UInt8}
  {partSize i : ℕ} {tracked : Bool} {completed : List CompletedUploadPart} {path id : String}
  {bytes : List (List StoredByte)} {row : PendingUpload}

theorem mem_of_sealAll (h : .sealed frame i ∈ sealAll frames) : frame ∈ frames := by
  obtain ⟨other, hother, hbyte⟩ := List.mem_flatMap.mp h
  obtain ⟨k, _, heq⟩ := List.mem_map.mp hbyte
  cases heq
  exact hother

theorem mem_of_payload
    (h : .sealed frame i ∈ nonce.map StoredByte.plain ++ parts.flatMap EncryptedPart.ciphertext) :
    frame ∈ parts.flatMap EncryptedPart.frames := by
  obtain h | h := List.mem_append.mp h
  · obtain ⟨_, _, heq⟩ := List.mem_map.mp h
    cases heq
  · rw [← sealAll_flatMap] at h
    exact mem_of_sealAll h

theorem mem_of_objectParts {part : List StoredByte} (hpart : part ∈ objectParts nonce parts)
    (h : .sealed frame i ∈ part) : frame ∈ parts.flatMap EncryptedPart.frames := by
  have hne : parts ≠ [] := by
    rintro rfl
    cases hpart
  have hflat : .sealed frame i ∈ (objectParts nonce parts).flatten :=
    List.mem_flatten.mpr ⟨part, hpart, h⟩
  rw [flatten_objectParts hne] at hflat
  exact mem_of_payload hflat

theorem mem_of_assemble {stored : List (List StoredByte)} {numbers : List ℤ} {byte : StoredByte}
    (h : byte ∈ assemble stored numbers) : ∃ part ∈ stored, byte ∈ part := by
  obtain ⟨number, _, hbyte⟩ := List.mem_flatMap.mp h
  cases hpart : stored[(number - 1).toNat]? with
  | none =>
      rw [hpart] at hbyte
      cases hbyte
  | some part =>
      rw [hpart] at hbyte
      exact ⟨part, List.mem_of_getElem? hpart, hbyte⟩

namespace UploadWorld

theorem Within.mono (h : w.Within frames) (hsubset : ∀ frame ∈ frames, frame ∈ more) :
    w.Within more where
  bucket key object hobject f i hf := hsubset f (h.bucket key object hobject f i hf)
  parts id part hpart f i hf := hsubset f (h.parts id part hpart f i hf)

theorem Within.writeParts (receipt : List StoredByte → String × String) (path id : String)
    (tracked : Bool) (number : ℕ) (h : w.Within frames)
    (hbytes : ∀ part ∈ bytes, ∀ f i, .sealed f i ∈ part → f ∈ frames) :
    (writeParts receipt path id tracked number bytes w).Within frames := by
  induction bytes generalizing number w with
  | nil => exact h
  | cons first bytes ih =>
      obtain ⟨hfirst, hrest⟩ := List.forall_mem_cons.mp hbytes
      unfold UploadWorld.writeParts
      refine ih _ ⟨h.bucket, fun other part hpart f i hf => ?_⟩ hrest
      by_cases hid : id = other
      · simp only [stored, StringMap.getElem?_insert, if_pos hid, Option.getD_some,
          List.mem_append, List.mem_singleton] at hpart
        obtain hpart | rfl := hpart
        · exact h.parts id part (List.mem_of_mem_take hpart) f i hf
        · exact hfirst f i hf
      · simp only [stored, StringMap.getElem?_insert, if_neg hid] at hpart
        exact h.parts other part hpart f i hf

theorem Within.clearUpload (h : w.Within frames) (path : String) :
    (w.clearUpload path).Within frames := ⟨h.bucket, h.parts⟩

theorem Within.put {result : UploadResult} {object : List StoredByte} (h : w.Within frames)
    (hobject : ∀ f i, .sealed f i ∈ object → f ∈ frames) :
    (w.put path result object).Within frames where
  bucket key other hother f i hf := by
    simp only [UploadWorld.put, StringMap.getElem?_insert] at hother
    split_ifs at hother
    · cases hother
      exact hobject f i hf
    · exact h.bucket key other hother f i hf
  parts := h.parts

def KeepsRows (w t : UploadWorld) : Prop :=
  ∀ (path : String) (row : PendingUpload), t.device.uploads[path]? = some row →
    ∃ old, w.device.uploads[path]? = some old ∧ row.nonce = old.nonce ∧
      row.contentHash = old.contentHash

theorem KeepsRows.refl (w : UploadWorld) : w.KeepsRows w := fun _ row hrow => ⟨row, hrow, rfl, rfl⟩

theorem KeepsRows.trans {s : UploadWorld} (h : w.KeepsRows s) (h' : s.KeepsRows t) :
    w.KeepsRows t := by
  intro path row hrow
  obtain ⟨middle, hmiddle, hnonce, hhash⟩ := h' path row hrow
  obtain ⟨old, hold, hnonce', hhash'⟩ := h path middle hmiddle
  exact ⟨old, hold, hnonce.trans hnonce', hhash.trans hhash'⟩

theorem keepsRows_clearUpload (w : UploadWorld) (path : String) :
    w.KeepsRows (w.clearUpload path) := by
  intro other row hrow
  simp only [UploadWorld.clearUpload, DeviceState.clearUpload, StringMap.getElem?_erase] at hrow
  split_ifs at hrow
  exact ⟨row, hrow, rfl, rfl⟩

theorem keepsRows_writeParts (receipt : List StoredByte → String × String) (path id : String)
    (tracked : Bool) (number : ℕ) (bytes : List (List StoredByte)) (w : UploadWorld) :
    w.KeepsRows (writeParts receipt path id tracked number bytes w) := by
  induction bytes generalizing number w with
  | nil => exact .refl w
  | cons first bytes ih =>
      unfold UploadWorld.writeParts
      apply KeepsRows.trans ?_ (ih _ _)
      intro other row hrow
      cases tracked with
      | false => exact ⟨row, hrow, rfl, rfl⟩
      | true =>
          simp only [if_true, DeviceState.recordUploadPart] at hrow
          cases hold : w.device.uploads[path]? with
          | none =>
              rw [hold] at hrow
              exact ⟨row, hrow, rfl, rfl⟩
          | some old =>
              rw [hold] at hrow
              simp only [StringMap.getElem?_insert] at hrow
              split_ifs at hrow with hsame
              · cases hrow
                exact ⟨old, hsame ▸ hold, rfl, rfl⟩
              · exact ⟨row, hrow, rfl, rfl⟩

theorem sendMultipart_leaves (h : w.Within frames)
    (hsealed : ∀ frame ∈ (StreamingEncryptor.new u.nonce u.path).sealedFrames sending.contents
      partSize sending.parts, frame ∈ frames)
    (hsend : w.sendMultipart hash objectKey receipt u partSize completed tracked sending = some t) :
    t.Within frames ∧ w.KeepsRows t ∧
      (tracked = true → sending.fate ≠ .interrupted → t.device.uploads[u.path]? = none) := by
  have hcleared : ∀ s : UploadWorld, s.Within frames → w.KeepsRows s →
      (if tracked = true then s.clearUpload u.path else s).Within frames ∧
      w.KeepsRows (if tracked = true then s.clearUpload u.path else s) ∧
      (tracked = true →
        (if tracked = true then s.clearUpload u.path else s).device.uploads[u.path]? = none) := by
    intro s hs hrows
    cases tracked with
    | false => exact ⟨hs, hrows, nofun⟩
    | true =>
        refine ⟨hs.clearUpload _, hrows.trans (keepsRows_clearUpload s _), fun _ => ?_⟩
        simp [UploadWorld.clearUpload, DeviceState.clearUpload]
  unfold UploadWorld.sendMultipart at hsend
  dsimp only at hsend
  cases hencrypt : (StreamingEncryptor.new u.nonce u.path).encryptParts sending.contents partSize
      sending.parts with
  | none =>
      rw [hencrypt] at hsend
      cases hsend
      obtain ⟨hwithin, hrows, hgone⟩ := hcleared w h (.refl w)
      exact ⟨hwithin, hrows, fun htracked _ => hgone htracked⟩
  | some encrypted =>
      obtain ⟨parts, e⟩ := encrypted
      rw [hencrypt] at hsend
      dsimp only at hsend
      rw [← encryptParts_sealed hencrypt] at hsealed
      have hnew : ∀ part ∈ (objectParts u.nonce parts).drop (nextPartNumber completed - 1).toNat,
          ∀ f i, .sealed f i ∈ part → f ∈ frames := fun part hpart f i hf =>
        hsealed f (mem_of_objectParts (List.mem_of_mem_drop hpart) hf)
      have hsent := h.writeParts receipt u.path u.uploadId tracked
        ((nextPartNumber completed - 1).toNat + 1) hnew
      have hrows := keepsRows_writeParts receipt u.path u.uploadId tracked
        ((nextPartNumber completed - 1).toNat + 1)
        ((objectParts u.nonce parts).drop (nextPartNumber completed - 1).toNat) w
      generalize writeParts receipt u.path u.uploadId tracked
        ((nextPartNumber completed - 1).toNat + 1)
        ((objectParts u.nonce parts).drop (nextPartNumber completed - 1).toNat) w = sent
        at hsend hsent hrows
      obtain ⟨hwithin, hkept, hgone⟩ := hcleared sent hsent hrows
      cases hfate : sending.fate with
      | interrupted =>
          rw [hfate] at hsend
          cases hsend
          exact ⟨hsent, hrows, fun _ hinterrupted => absurd rfl hinterrupted⟩
      | failed =>
          rw [hfate] at hsend
          cases hsend
          exact ⟨hwithin, hkept, fun htracked _ => hgone htracked⟩
      | completed =>
          rw [hfate] at hsend
          dsimp only at hsend
          by_cases hfinished : e.finished = true
          · rw [if_pos hfinished] at hsend
            by_cases hlen : nonceSize + (parts.flatMap EncryptedPart.ciphertext).length =
                ciphertextLen u.size
            · rw [if_pos hlen] at hsend
              cases hsend
              refine ⟨hwithin.put fun f i hf => ?_, hkept, fun htracked _ => hgone htracked⟩
              obtain ⟨part, hpart, hbyte⟩ := mem_of_assemble hf
              exact hsent.parts u.uploadId part hpart f i hbyte
            · rw [if_neg hlen] at hsend
              cases hsend
              exact ⟨hwithin, hkept, fun htracked _ => hgone htracked⟩
          · rw [if_neg hfinished] at hsend
            cases hsend

theorem uploadFile_leaves (h : w.Within frames)
    (hsealed : ∀ frame ∈ (StreamingEncryptor.new u.nonce u.path).sealedFrames sending.contents
      (SealingWorld.uploadSize u.size) sending.parts, frame ∈ frames)
    (hupload : w.uploadFile hash objectKey receipt u tracked sending = some t) :
    t.Within frames ∧ ∀ (path : String) (row : PendingUpload),
      t.device.uploads[path]? = some row →
      (∃ old, w.device.uploads[path]? = some old ∧ row.nonce = old.nonce ∧
        row.contentHash = old.contentHash) ∨
      (tracked = true ∧ maxSingleShotPutSize < u.size ∧ sending.fate = .interrupted ∧
        path = u.path ∧ row.nonce = u.nonce ∧ row.contentHash = hash u.content) := by
  unfold UploadWorld.uploadFile at hupload
  unfold SealingWorld.uploadSize at hsealed
  by_cases hsingle : u.size ≤ maxSingleShotPutSize
  · rw [if_pos hsingle] at hupload hsealed
    dsimp only at hupload
    have hkept : ∀ s : UploadWorld, s.device = w.device → ∀ (path : String) (row : PendingUpload),
        s.device.uploads[path]? = some row → ∃ old, w.device.uploads[path]? = some old ∧
          row.nonce = old.nonce ∧ row.contentHash = old.contentHash :=
      fun s hdevice path row hrow => ⟨row, hdevice ▸ hrow, rfl, rfl⟩
    split at hupload
    · rename_i parts e hencrypt hfate
      rw [← encryptParts_sealed hencrypt] at hsealed
      by_cases hfinished : e.finished = true
      · rw [if_pos hfinished] at hupload
        by_cases hlen : (u.nonce.map StoredByte.plain ++
            parts.flatMap EncryptedPart.ciphertext).length = ciphertextLen u.size
        · rw [if_pos hlen] at hupload
          cases hupload
          exact ⟨h.put fun f i hf => hsealed f (mem_of_payload hf),
            fun path row hrow => .inl (hkept _ rfl path row hrow)⟩
        · rw [if_neg hlen] at hupload
          cases hupload
          exact ⟨h, fun path row hrow => .inl (hkept _ rfl path row hrow)⟩
      · rw [if_neg hfinished] at hupload
        cases hupload
    · cases hupload
      exact ⟨h, fun path row hrow => .inl (hkept _ rfl path row hrow)⟩
  · rw [if_neg hsingle] at hupload hsealed
    dsimp only at hupload
    generalize hbegun : ({ w with
      device := (if tracked = true then w.device.recordUploadStart u.path u.uploadId
        (getChunkSize u.size) (hash u.content) u.nonce else w.device)
      multiparts := w.multiparts.insert u.uploadId [] } : UploadWorld) = begun at hupload
    have hstart : begun.Within frames := by
      rw [← hbegun]
      refine ⟨h.bucket, fun id part hpart f i hf => ?_⟩
      simp only [stored, StringMap.getElem?_insert] at hpart
      split_ifs at hpart
      · cases hpart
      · exact h.parts id part hpart f i hf
    obtain ⟨hwithin, hrows, hgone⟩ := sendMultipart_leaves hstart hsealed hupload
    refine ⟨hwithin, fun path row hrow => ?_⟩
    obtain ⟨old, hold, hnonce, hhash⟩ := hrows path row hrow
    rw [← hbegun] at hold
    cases tracked with
    | false => exact .inl ⟨old, hold, hnonce, hhash⟩
    | true =>
        simp only [if_true, DeviceState.recordUploadStart, StringMap.getElem?_insert] at hold
        split_ifs at hold with hsame
        · cases hold
          subst hsame
          by_cases hfate : sending.fate = .interrupted
          · exact .inr ⟨rfl, Nat.lt_of_not_le hsingle, hfate, rfl, hnonce, hhash⟩
          · rw [hgone rfl hfate] at hrow
            cases hrow
        · exact .inl ⟨old, hold, hnonce, hhash⟩

end UploadWorld

end Store

structure SealingWorld.Kept (hash : List UInt8 → ContentHash) (versions : Set (String × List UInt8))
    (s : SealingWorld) : Prop where
  within : s.world.Within s.frames
  once : SealedOnce s.frames
  drawn : ∀ frame ∈ s.frames, frame.nonce ∈ s.drawn
  rows : ∀ (path : String) (row : PendingUpload), s.world.device.uploads[path]? = some row →
    row.nonce ∈ s.drawn ∧ ∃ content, (path, content) ∈ versions ∧ row.contentHash = hash content ∧
      ∀ frame ∈ s.frames, frame.nonce = row.nonce → frame ∈ chunkFrames row.nonce path 0 content
  apart : ∀ (path path' : String) (row row' : PendingUpload),
    s.world.device.uploads[path]? = some row → s.world.device.uploads[path']? = some row' →
    row.nonce = row'.nonce → path = path'

section Runs

variable {hash : List UInt8 → ContentHash} {objectKey : String → ContentHash → String}
  {receipt : List StoredByte → String × String} {versions : Set (String × List UInt8)}
  {s t start : SealingWorld} {steps : List UploadStep} {w : UploadWorld} {u : Upload}
  {sending : Sending} {tracked : Bool}

namespace SealingWorld

theorem Kept.quiet (h : s.Kept hash versions) (hwithin : w.Within s.frames)
    (hrows : s.world.KeepsRows w) :
    SealingWorld.Kept hash versions ⟨w, s.drawn ++ [], s.frames ++ []⟩ := by
  rw [List.append_nil, List.append_nil]
  refine ⟨hwithin, h.once, h.drawn, fun path row hrow => ?_, fun path path' row row' hrow hrow' hsame
    => ?_⟩
  · obtain ⟨old, hold, hnonce, hhash⟩ := hrows path row hrow
    rw [hnonce, hhash]
    exact h.rows path old hold
  · obtain ⟨old, hold, hnonce, _⟩ := hrows path row hrow
    obtain ⟨old', hold', hnonce', _⟩ := hrows path' row' hrow'
    exact h.apart path path' old old' hold hold' (by rw [← hnonce, ← hnonce', hsame])

theorem Kept.upload (h : s.Kept hash versions) (hfresh : u.nonce ∉ s.drawn)
    (hhashed : tracked = true → maxSingleShotPutSize < u.size → sending.fate = .interrupted →
      (u.path, u.content) ∈ versions ∧
        ∀ frame ∈ (StreamingEncryptor.new u.nonce u.path).sealedFrames sending.contents
          (uploadSize u.size) sending.parts, frame ∈ chunkFrames u.nonce u.path 0 u.content)
    (hupload : s.world.uploadFile hash objectKey receipt u tracked sending = some w) :
    SealingWorld.Kept hash versions ⟨w, s.drawn ++ [u.nonce],
      s.frames ++ (StreamingEncryptor.new u.nonce u.path).sealedFrames sending.contents
        (uploadSize u.size) sending.parts⟩ := by
  obtain ⟨hplaced, hsame⟩ := sealedFrames_placed sending.contents (uploadSize u.size)
    sending.parts (.new u.nonce u.path)
  have hleaves := @UploadWorld.uploadFile_leaves hash objectKey receipt s.world w u sending
    (s.frames ++ (StreamingEncryptor.new u.nonce u.path).sealedFrames sending.contents
      (uploadSize u.size) sending.parts) tracked
    (h.within.mono fun _ hframe => List.mem_append_left _ hframe)
    (fun _ hframe => List.mem_append_right _ hframe) hupload
  obtain ⟨hwithin, hrows⟩ := hleaves
  generalize (StreamingEncryptor.new u.nonce u.path).sealedFrames sending.contents
    (uploadSize u.size) sending.parts = new at hplaced hsame hwithin hhashed ⊢
  have hnonce : ∀ frame ∈ new, frame.nonce = u.nonce := fun frame hframe => (hsame frame hframe).1
  have hold : ∀ frame ∈ s.frames, frame.nonce ≠ u.nonce := fun frame hframe heq =>
    hfresh (heq ▸ h.drawn frame hframe)
  refine ⟨hwithin, ?_, fun frame hframe => ?_, fun path row hrow => ?_,
    fun path path' row row' hrow hrow' heq => ?_⟩
  · apply h.once.append (.of_placed hplaced)
    intro f hf g hg heq
    exact absurd (heq.trans (hnonce g hg)) (hold f hf)
  · rw [List.mem_append]
    obtain hframe | hframe := List.mem_append.mp hframe
    · exact .inl (h.drawn frame hframe)
    · exact .inr (List.mem_singleton.mpr (hnonce frame hframe))
  · obtain ⟨old, hrowOld, hrowNonce, hrowHash⟩ | ⟨htracked, hlarge, hfate, rfl, hrowNonce, hrowHash⟩ :=
      hrows path row hrow
    · obtain ⟨hdrawn, content, hversion, hhash, hframes⟩ := h.rows path old hrowOld
      rw [hrowNonce, hrowHash]
      refine ⟨List.mem_append_left _ hdrawn, content, hversion, hhash, fun frame hframe heq => ?_⟩
      obtain hframe | hframe := List.mem_append.mp hframe
      · exact hframes frame hframe heq
      · exact absurd (heq.symm.trans (hnonce frame hframe) ▸ hdrawn) hfresh
    · obtain ⟨hversion, hframes⟩ := hhashed htracked hlarge hfate
      rw [hrowNonce, hrowHash]
      refine ⟨List.mem_append_right _ (List.mem_singleton_self _), u.content, hversion, rfl,
        fun frame hframe heq => ?_⟩
      obtain hframe | hframe := List.mem_append.mp hframe
      · exact absurd heq (hold frame hframe)
      · exact hframes frame hframe
  · obtain ⟨old, hrowOld, hrowNonce, _⟩ | ⟨_, _, _, hpath, hrowNonce, _⟩ := hrows path row hrow
    · obtain ⟨old', hrowOld', hrowNonce', _⟩ | ⟨_, _, _, _, hrowNonce', _⟩ := hrows path' row' hrow'
      · exact h.apart path path' old old' hrowOld hrowOld' (by rw [← hrowNonce, ← hrowNonce', heq])
      · rw [hrowNonce, hrowNonce'] at heq
        exact absurd (heq ▸ (h.rows path old hrowOld).1) hfresh
    · obtain ⟨old', hrowOld', hrowNonce', _⟩ | ⟨_, _, _, hpath', _, _⟩ := hrows path' row' hrow'
      · rw [hrowNonce, hrowNonce'] at heq
        exact absurd (heq.symm ▸ (h.rows path' old' hrowOld').1) hfresh
      · rw [hpath, hpath']

theorem Kept.resume {path : String} {row : PendingUpload} {content : List UInt8} {mtimeNs : ℤ}
    (hideal : ∀ v ∈ versions, ∀ v' ∈ versions, hash v.2 = hash v'.2 → v.2 = v'.2)
    (h : s.Kept hash versions) (hrow : s.world.device.uploads[path]? = some row)
    (hversion : (path, content) ∈ versions) (hhash : hash content = row.contentHash)
    (hread : (StreamingEncryptor.new row.nonce path).sealedFrames sending.contents row.partSize
        sending.parts =
      (StreamingEncryptor.new row.nonce path).sealedFrames (fun _ => content) row.partSize
        sending.parts)
    (hresume : s.world.sendMultipart hash objectKey receipt
      ⟨path, content.length, mtimeNs, content, row.nonce, row.uploadId⟩ row.partSize
      row.completedParts true sending = some w) :
    SealingWorld.Kept hash versions ⟨w, s.drawn ++ [],
      s.frames ++ (StreamingEncryptor.new row.nonce path).sealedFrames sending.contents row.partSize
        sending.parts⟩ := by
  have hleaves := @UploadWorld.sendMultipart_leaves hash objectKey receipt s.world w
    ⟨path, content.length, mtimeNs, content, row.nonce, row.uploadId⟩ sending
    (s.frames ++ (StreamingEncryptor.new row.nonce path).sealedFrames sending.contents row.partSize
      sending.parts) row.partSize true row.completedParts
    (h.within.mono fun _ hframe => List.mem_append_left _ hframe)
    (fun _ hframe => List.mem_append_right _ hframe) hresume
  obtain ⟨hwithin, hrows, _⟩ := hleaves
  obtain ⟨hdrawn, hashed, hversionHashed, hrowHash, hframes⟩ := h.rows path row hrow
  have hsame : content = hashed :=
    hideal _ hversion _ hversionHashed (hhash.trans hrowHash)
  subst hsame
  have hnew : ∀ frame ∈ (StreamingEncryptor.new row.nonce path).sealedFrames sending.contents
      row.partSize sending.parts, frame ∈ chunkFrames row.nonce path 0 content := by
    intro frame hframe
    rw [hread] at hframe
    exact sealedFrames_still hframe
  have hnonce : ∀ frame ∈ (StreamingEncryptor.new row.nonce path).sealedFrames sending.contents
      row.partSize sending.parts, frame.nonce = row.nonce :=
    fun frame hframe => ((sealedFrames_placed _ _ _ _).2 frame hframe).1
  have hchunks : SealedOnce (chunkFrames row.nonce path 0 content) :=
    .of_placed (map_position_chunkFrames row.nonce path 0 content)
  generalize (StreamingEncryptor.new row.nonce path).sealedFrames sending.contents
    row.partSize sending.parts = new at hwithin hnew hnonce ⊢
  rw [List.append_nil]
  refine ⟨hwithin, ?_, fun frame hframe => ?_, fun other kept hkept => ?_,
    fun other other' kept kept' hkept hkept' heq => ?_⟩
  · apply h.once.append (hchunks.subset hnew)
    intro f hf g hg heq
    exact hchunks f (hframes f hf (heq.trans (hnonce g hg))) g (hnew g hg) heq
  · obtain hframe | hframe := List.mem_append.mp hframe
    · exact h.drawn frame hframe
    · rw [hnonce frame hframe]
      exact hdrawn
  · obtain ⟨old, hold, hkeptNonce, hkeptHash⟩ := hrows other kept hkept
    obtain ⟨holdDrawn, old', holdVersion, holdHash, holdFrames⟩ := h.rows other old hold
    rw [hkeptNonce, hkeptHash]
    refine ⟨holdDrawn, old', holdVersion, holdHash, fun frame hframe heq => ?_⟩
    obtain hframe | hframe := List.mem_append.mp hframe
    · exact holdFrames frame hframe heq
    · have hrowNonce : row.nonce = old.nonce := (hnonce frame hframe).symm.trans heq
      have hpath := h.apart path other row old hrow hold hrowNonce
      subst hpath
      rw [hrow] at hold
      cases hold
      have hcontent : content = old' :=
        hideal _ hversion _ holdVersion (hrowHash.symm.trans holdHash)
      rw [← hcontent]
      exact hnew frame hframe
  · obtain ⟨old, hold, hkeptNonce, _⟩ := hrows other kept hkept
    obtain ⟨old', hold', hkeptNonce', _⟩ := hrows other' kept' hkept'
    exact h.apart other other' old old' hold hold' (by rw [← hkeptNonce, ← hkeptNonce', heq])

theorem Kept.step {a : UploadStep}
    (hideal : ∀ v ∈ versions, ∀ v' ∈ versions, hash v.2 = hash v'.2 → v.2 = v'.2)
    (h : s.Kept hash versions) (hguard : SealsHashed hash versions s a)
    (hstep : s.step hash objectKey receipt a = some t) : t.Kept hash versions := by
  obtain ⟨hfresh, hguard⟩ := hguard
  obtain ⟨w, hworld, rfl⟩ := Option.map_eq_some_iff.mp hstep
  cases a with
  | upload u sending =>
      simp only [UploadWorld.step] at hworld
      split_ifs at hworld with hpending
      refine Kept.upload (u := u.hashed) h (hfresh u.nonce (List.mem_singleton_self _)) ?_ hworld
      intro _ hlarge hfate
      refine ⟨hguard.1, fun frame hframe => ?_⟩
      have hsize : uploadSize u.hashed.size = getChunkSize u.content.length :=
        if_neg (Nat.not_le.mpr hlarge)
      have hframe' : frame ∈ (StreamingEncryptor.new u.nonce u.path).sealedFrames sending.contents
          (getChunkSize u.content.length) sending.parts := hsize ▸ hframe
      rw [hguard.2 hlarge hfate] at hframe'
      exact sealedFrames_still hframe'
  | relocate u parts fate =>
      have hnone : false = true → maxSingleShotPutSize < u.size → fate = .interrupted →
          (u.path, u.content) ∈ versions ∧ ∀ frame ∈ (StreamingEncryptor.new u.nonce
            u.path).sealedFrames (fun _ => u.content) (uploadSize u.size) parts,
            frame ∈ chunkFrames u.nonce u.path 0 u.content :=
        fun hfalse => absurd hfalse Bool.false_ne_true
      exact h.upload (hfresh u.nonce (List.mem_singleton_self _)) hnone hworld
  | resume path mtimeNs content sending =>
      simp only [UploadWorld.step] at hworld
      unfold UploadWorld.resumeUpload at hworld
      cases hrow : s.world.device.uploads[path]? with
      | none =>
          rw [hrow] at hworld
          cases hworld
      | some row =>
          rw [hrow] at hworld
          have hsealed : sealedBy hash s.world (.resume path mtimeNs content sending) =
              if hash content = row.contentHash then
                (StreamingEncryptor.new row.nonce path).sealedFrames sending.contents row.partSize
                  sending.parts
              else [] := by
            simp only [sealedBy, hrow]
          rw [hsealed]
          dsimp only at hworld
          by_cases hhash : hash content = row.contentHash
          · rw [if_pos hhash] at hworld ⊢
            exact h.resume hideal hrow hguard.1 hhash (hguard.2 row hrow hhash) hworld
          · rw [if_neg hhash] at hworld ⊢
            cases hworld
            exact h.quiet (h.within.clearUpload path) (UploadWorld.keepsRows_clearUpload _ path)
  | log manifest clock =>
      cases hworld
      exact h.quiet ⟨h.within.bucket, h.within.parts⟩ (.refl s.world)
  | ends =>
      cases hworld
      exact h.quiet ⟨h.within.bucket, h.within.parts⟩ (.refl s.world)

end SealingWorld

/-- As long as no nonce is drawn twice and a file that may be resumed is read as it was hashed, no
nonce, counter and flag seal two plaintexts, and there is nothing else at the store. -/
theorem nonces_seal_once
    (hideal : ∀ v ∈ versions, ∀ v' ∈ versions, hash v.2 = hash v'.2 → v.2 = v'.2)
    (hpending : start.world.device.uploads = ∅) (hbucket : start.world.bucket = ∅)
    (hmultiparts : start.world.multiparts = ∅) (hframes : start.frames = [])
    (hrun : Runs (SealingWorld.step hash objectKey receipt) (SealsHashed hash versions) start steps
      t) :
    SealedOnce t.frames ∧ t.world.Within t.frames := by
  have hstart : start.Kept hash versions := by
    have hnone : ∀ (path : String) (row : PendingUpload),
        start.world.device.uploads[path]? ≠ some row := by
      intro path row hrow
      rw [hpending] at hrow
      cases hrow
    refine ⟨⟨?_, ?_⟩, ?_, ?_, fun path row hrow => absurd hrow (hnone path row),
      fun path path' row row' hrow => absurd hrow (hnone path row)⟩
    · intro key object hobject
      rw [hbucket] at hobject
      cases hobject
    · intro id part hpart
      unfold UploadWorld.stored at hpart
      rw [hmultiparts] at hpart
      cases hpart
    · rw [hframes]
      exact fun f hf => absurd hf List.not_mem_nil
    · rw [hframes]
      exact fun f hf => absurd hf List.not_mem_nil
  have hkept := hrun.invariant hstart fun s a t hs hguard hstep => hs.step hideal hguard hstep
  exact ⟨hkept.once, hkept.within⟩

end Runs

/-- The second pass seals the first part once more. -/
theorem nonces_seal_once_resumed : ∃ w t,
    SealingWorld.step sampleHash sampleKey sampleReceipt ⟨idleUploads, [], []⟩
        (.upload largeUpload ⟨fun _ => largeFile 1, 1, .interrupted⟩) = some w ∧
      w.world.Interrupted sampleHash largeUpload (getChunkSize (largeFile 1).length) 1 ∧
      w.step sampleHash sampleKey sampleReceipt (.resume "a" 5 (largeFile 1)
        ⟨fun _ => largeFile 1, 1000, .completed⟩) = some t ∧
      SealedOnce t.frames ∧ t.world.Within t.frames := by
  obtain ⟨_, hcount, _⟩ := large_largeFile 1
  obtain ⟨w, hupload, hrow, _⟩ := largeUpload_interrupted
  obtain ⟨t, hresumed, _⟩ := hrow.completes sampleKey sampleReceipt 5 List.length_replicate
    hcount (frameCount_largeFile 1)
  have hresume : w.step sampleHash sampleKey sampleReceipt (.resume "a" 5 (largeFile 1)
      ⟨fun _ => largeFile 1, 1000, .completed⟩) = some t := hresumed
  have hideal : ∀ v ∈ ({("a", largeFile 1)} : Set (String × List UInt8)),
      ∀ v' ∈ ({("a", largeFile 1)} : Set _), sampleHash v.2 = sampleHash v'.2 → v.2 = v'.2 := by
    rintro v rfl v' rfl -
    rfl
  have hfirst := SealingWorld.step_of_world [] [] hupload
  rw [List.nil_append, List.nil_append] at hfirst
  generalize SealingWorld.sealedBy sampleHash idleUploads
    (.upload largeUpload ⟨fun _ => largeFile 1, 1, .interrupted⟩) = frames at hfirst
  have hsecond := SealingWorld.step_of_world
    (SealingWorld.nonces (.upload largeUpload ⟨fun _ => largeFile 1, 1, .interrupted⟩)) frames hresume
  have hrun : Runs (SealingWorld.step sampleHash sampleKey sampleReceipt)
      (SealsHashed sampleHash {("a", largeFile 1)}) ⟨idleUploads, [], []⟩
      [.upload largeUpload ⟨fun _ => largeFile 1, 1, .interrupted⟩,
        .resume "a" 5 (largeFile 1) ⟨fun _ => largeFile 1, 1000, .completed⟩] _ :=
    .next ⟨fun _ _ => List.not_mem_nil, rfl, fun _ _ => rfl⟩ hfirst
      (.next ⟨fun _ hnone => absurd hnone List.not_mem_nil, rfl, fun _ _ _ => rfl⟩ hsecond (.refl _))
  exact ⟨_, _, hfirst, hrow, hsecond, nonces_seal_once hideal rfl rfl rfl rfl hrun⟩

section Edited

variable {content nonce : List UInt8} {path : String} {partSize : ℕ}

theorem first_mem_sealedFrames (partSize : ℕ) (nonce : List UInt8) (path : String)
    (hlong : chunkSize < content.length) (hcount : frameCount content.length ≤ counterMax + 1) :
    ∃ parts e, (StreamingEncryptor.new nonce path).encryptParts (fun _ => content) partSize 1 =
        some (parts, e) ∧
      ⟨nonce, path, 0, false, content.take chunkSize⟩ ∈
        (StreamingEncryptor.new nonce path).sealedFrames (fun _ => content) partSize 1 := by
  have hcounted : Counted ((StreamingEncryptor.new nonce path).remaining content) :=
    counted_chunkFrames hcount
  have hall : (StreamingEncryptor.new nonce path).remaining content =
      chunkFrames nonce path 0 content := rfl
  obtain ⟨next, hpart, _⟩ := encryptNextPart_takes partSize rfl hcounted
  obtain ⟨k, hk⟩ := Nat.exists_eq_add_of_le (one_le_framesPerPart partSize)
  have hparts : (StreamingEncryptor.new nonce path).encryptParts (fun _ => content) partSize 1 =
      some ([⟨(chunkFrames nonce path 0 content).take (framesPerPart partSize)⟩], next) := by
    unfold StreamingEncryptor.encryptParts
    rw [hpart, hall]
    rfl
  refine ⟨_, next, hparts, ?_⟩
  rw [← encryptParts_sealed hparts, List.flatMap_singleton, hk, Nat.add_comm, chunkFrames_long hlong,
    List.take_succ_cons]
  exact List.mem_cons_self

theorem sendMultipart_interrupted (hash : List UInt8 → ContentHash)
    (objectKey : String → ContentHash → String) (receipt : List StoredByte → String × String)
    (w : UploadWorld) (u : Upload) (partSize : ℕ) (completed : List CompletedUploadPart)
    (tracked : Bool) (contents : ℕ → List UInt8) (n : ℕ) :
    ∃ t, w.sendMultipart hash objectKey receipt u partSize completed tracked
      ⟨contents, n, .interrupted⟩ = some t := by
  unfold UploadWorld.sendMultipart
  dsimp only
  cases (StreamingEncryptor.new u.nonce u.path).encryptParts contents partSize n with
  | none => exact ⟨_, rfl⟩
  | some encrypted => exact ⟨_, rfl⟩

theorem uploadFile_interrupted {w : UploadWorld} {u : Upload} {contents : ℕ → List UInt8} {n : ℕ}
    {parts : List EncryptedPart} {e : StreamingEncryptor} (hash : List UInt8 → ContentHash)
    (objectKey : String → ContentHash → String) (receipt : List StoredByte → String × String)
    (hnew : w.device.uploads[u.path]? = none) (hlarge : maxSingleShotPutSize < u.size)
    (hparts : (StreamingEncryptor.new u.nonce u.path).encryptParts contents (getChunkSize u.size) n =
      some (parts, e)) :
    ∃ t row, w.uploadFile hash objectKey receipt u true ⟨contents, n, .interrupted⟩ = some t ∧
      t.device.uploads[u.path]? = some row ∧ row.nonce = u.nonce ∧
      row.contentHash = hash u.content := by
  unfold UploadWorld.uploadFile
  rw [if_neg (Nat.not_le.mpr hlarge)]
  dsimp only
  rw [if_pos rfl]
  generalize hbegun : ({ w with
    device := w.device.recordUploadStart u.path u.uploadId (getChunkSize u.size) (hash u.content)
      u.nonce
    multiparts := w.multiparts.insert u.uploadId [] } : UploadWorld) = begun
  have hrow : ∃ row : PendingUpload, begun.device.uploads[u.path]? = some row ∧
      row.completedParts = [] ∧ row.nonce = u.nonce ∧ row.contentHash = hash u.content := by
    rw [← hbegun]
    exact ⟨⟨u.path, u.uploadId, min (getChunkSize u.size) i64Max, hash u.content, u.nonce, []⟩,
      by simp [DeviceState.recordUploadStart, hnew], rfl, rfl, rfl⟩
  obtain ⟨row, hrow, hnone, hnonce, hhash⟩ := hrow
  have hnumbers : row.completedParts.map CompletedUploadPart.partNumber = partNumbers 0 := by
    rw [hnone]
    rfl
  obtain ⟨completed, hrecorded, _⟩ := UploadWorld.writeParts_row receipt u.uploadId
    ((objectParts u.nonce parts).drop 0) hrow hnumbers
  have hskip : (nextPartNumber [] - 1).toNat = 0 := nextPartNumber_eq (n := 0) rfl
  unfold UploadWorld.sendMultipart
  dsimp only
  rw [hparts, hskip]
  exact ⟨_, _, rfl, hrecorded, hnonce, hhash⟩

/-- The file is written once it is hashed, the upload of what it then holds is interrupted, and the
file is written back before it is resumed. -/
def editedSteps (hashed read : List UInt8) : List UploadStep :=
  [.upload ⟨"a", 0, 0, hashed, List.replicate nonceSize 0, "id"⟩ ⟨fun _ => read, 1, .interrupted⟩,
    .resume "a" 0 hashed ⟨fun _ => hashed, 1, .interrupted⟩]

theorem edited_seals_twice {hashed read : List UInt8} (hash : List UInt8 → ContentHash)
    (objectKey : String → ContentHash → String) (receipt : List StoredByte → String × String)
    (hlarge : maxSingleShotPutSize < hashed.length) (hlong : chunkSize < hashed.length)
    (hcount : frameCount hashed.length ≤ counterMax + 1) (hlong' : chunkSize < read.length)
    (hcount' : frameCount read.length ≤ counterMax + 1)
    (hdiffer : read.take chunkSize ≠ hashed.take chunkSize) :
    ∃ t, Runs (SealingWorld.step hash objectKey receipt) DrawsFresh ⟨idleUploads, [], []⟩
      (editedSteps hashed read) t ∧ ¬ SealedOnce t.frames := by
  let u : Upload := ⟨"a", 0, 0, hashed, List.replicate nonceSize 0, "id"⟩
  have hsize : SealingWorld.uploadSize hashed.length = getChunkSize hashed.length :=
    if_neg (Nat.not_le.mpr hlarge)
  obtain ⟨parts, e, hparts, hfirst⟩ := first_mem_sealedFrames (getChunkSize hashed.length)
    u.nonce u.path hlong' hcount'
  have hempty : idleUploads.device.uploads[u.hashed.path]? = none := rfl
  obtain ⟨w, row, hupload, hrow, hnonce, hhash⟩ :=
    uploadFile_interrupted hash objectKey receipt hempty hlarge hparts
  have hstep : idleUploads.step hash objectKey receipt
      (.upload u ⟨fun _ => read, 1, .interrupted⟩) = some w := hupload
  obtain ⟨w', hresume⟩ := sendMultipart_interrupted hash objectKey receipt w
    ⟨"a", hashed.length, 0, hashed, row.nonce, row.uploadId⟩ row.partSize row.completedParts true
    (fun _ => hashed) 1
  have hhash' : hash hashed = row.contentHash := hhash.symm
  have hrow' : w.device.uploads["a"]? = some row := hrow
  have hstep' : w.step hash objectKey receipt
      (.resume "a" 0 hashed ⟨fun _ => hashed, 1, .interrupted⟩) = some w' := by
    simp only [UploadWorld.step, UploadWorld.resumeUpload, hrow']
    rw [if_pos hhash', hresume]
  obtain ⟨_, _, _, hsecond⟩ := first_mem_sealedFrames row.partSize row.nonce "a" hlong hcount
  have hsealed : SealingWorld.sealedBy hash idleUploads
      (.upload u ⟨fun _ => read, 1, .interrupted⟩) =
      (StreamingEncryptor.new u.nonce u.path).sealedFrames (fun _ => read)
        (getChunkSize hashed.length) 1 := by
    rw [← hsize]
    rfl
  have hsealed' : SealingWorld.sealedBy hash w
      (.resume "a" 0 hashed ⟨fun _ => hashed, 1, .interrupted⟩) =
      (StreamingEncryptor.new row.nonce "a").sealedFrames (fun _ => hashed) row.partSize 1 := by
    simp only [SealingWorld.sealedBy, hrow']
    rw [if_pos hhash']
  have hmiddle := SealingWorld.step_of_world [] [] hstep
  have hlast := SealingWorld.step_of_world [u.nonce] (SealingWorld.sealedBy hash idleUploads
    (.upload u ⟨fun _ => read, 1, .interrupted⟩)) hstep'
  refine ⟨_, .next (fun _ _ => List.not_mem_nil) hmiddle
    (.next (fun _ hnone => absurd hnone List.not_mem_nil) hlast (.refl _)), fun honce => ?_⟩
  dsimp only at honce
  rw [hsealed, hsealed'] at honce
  exact hdiffer (honce _ (List.mem_append_left _ hfirst) _ (List.mem_append_right _ hsecond)
    hnonce.symm rfl rfl)

theorem take_largeFile (byte : UInt8) :
    (largeFile byte).take chunkSize = List.replicate chunkSize byte := by
  unfold largeFile
  rw [List.take_replicate]
  rfl

/-- The file holds ones while it is uploaded, and zeros before and after. -/
theorem nonce_seals_two_plaintexts :
    ∃ t, Runs (SealingWorld.step sampleHash sampleKey sampleReceipt) DrawsFresh ⟨idleUploads, [], []⟩
      (editedSteps (largeFile 0) (largeFile 1)) t ∧ ¬ SealedOnce t.frames := by
  obtain ⟨hlong, hcount, hlarge⟩ := large_largeFile 0
  obtain ⟨hlong', hcount', _⟩ := large_largeFile 1
  apply edited_seals_twice sampleHash sampleKey sampleReceipt hlarge hlong hcount hlong' hcount'
  rw [take_largeFile, take_largeFile]
  intro hsame
  have hpos := chunkSize_pos
  have hbyte := List.eq_of_mem_replicate (hsame ▸ List.mem_replicate.mpr ⟨hpos.ne', rfl⟩)
  exact absurd hbyte (by decide)

end Edited

end FileMirror
