import Mathlib.Data.List.Basic
import Mathlib.Data.List.Flatten
import Mathlib.Tactic.Ring

set_option autoImplicit false

/-!
# Content encryption

`crypto/content.rs`: a file is read in chunks while it may change, and each chunk is sealed as one
frame. Sealing is ideal: a sealed byte says which frame it is of, and nothing else opens it.
-/

namespace FileMirror

def chunkSize : ℕ := 65536

def tagSize : ℕ := 16

def nonceSize : ℕ := 19

/-- The position from which STREAM seals and opens none but a last frame. -/
def counterMax : ℕ := 2 ^ 32 - 1

def ciphertextLen (plaintextLen : ℕ) : ℕ :=
  let frames := max ((plaintextLen + chunkSize - 1) / chunkSize) 1
  nonceSize + plaintextLen + frames * tagSize

structure Frame where
  nonce : List UInt8
  aad : String
  position : ℕ
  last : Bool
  plaintext : List UInt8
  deriving DecidableEq

inductive StoredByte where
  | plain (byte : UInt8)
  | «sealed» (frame : Frame) (offset : ℕ)
  deriving DecidableEq

/-- `encrypt_next_in_place` or `encrypt_last_in_place` under the content key. -/
def Frame.seal (frame : Frame) : List StoredByte :=
  (List.range (frame.plaintext.length + tagSize)).map (.sealed frame)

def sealAll (frames : List Frame) : List StoredByte := frames.flatMap Frame.seal

/-- `decrypt_next_in_place` and `decrypt_last_in_place`. -/
def openFrame (nonce : List UInt8) (aad : String) (position : ℕ) (last : Bool)
    (bytes : List StoredByte) : Option (List UInt8) :=
  match bytes.head? with
  | some (.sealed frame _) =>
      if bytes = frame.seal ∧ frame.nonce = nonce ∧ frame.aad = aad ∧
          frame.position = position ∧ frame.last = last
      then some frame.plaintext else none
  | _ => none

/-- Up to `n` bytes from `offset` on. Each attempt to read a byte finds the contents that the file
has by then; past the end it finds none. -/
def readUpTo (contents : ℕ → List UInt8) : ℕ → ℕ → ℕ → List UInt8 × ℕ
  | 0, clock, _ => ([], clock)
  | n + 1, clock, offset =>
      match (contents clock)[offset]? with
      | none => ([], clock + 1)
      | some byte =>
          let rest := readUpTo contents n (clock + 1) (offset + 1)
          (byte :: rest.1, rest.2)

structure StreamingEncryptor where
  nonce : List UInt8
  aad : String
  position : ℕ
  finished : Bool
  offset : ℕ
  clock : ℕ

structure EncryptedPart where
  frames : List Frame
  deriving DecidableEq

def EncryptedPart.ciphertext (part : EncryptedPart) : List StoredByte := sealAll part.frames

namespace StreamingEncryptor

def new (nonce : List UInt8) (aad : String) : StreamingEncryptor := ⟨nonce, aad, 0, false, 0, 0⟩

def readFrame (contents : ℕ → List UInt8) (e : StreamingEncryptor) :
    Frame × StreamingEncryptor :=
  let (bytes, clock) := readUpTo contents chunkSize e.clock e.offset
  let offset := e.offset + bytes.length
  let isLast := bytes.isEmpty || (contents clock)[offset]?.isNone
  (⟨e.nonce, e.aad, e.position, isLast, bytes⟩,
    { e with position := e.position + 1, finished := isLast, offset, clock := clock + 1 })

/-- The loop of `encrypt_next_part`; a part of `partSize` bytes takes no more than `partSize + 1`
frames. -/
def fillPart (contents : ℕ → List UInt8) (partSize : ℕ) :
    ℕ → StreamingEncryptor → List Frame → Option (List Frame × StreamingEncryptor)
  | 0, e, frames => some (frames, e)
  | fuel + 1, e, frames =>
      let (frame, next) := e.readFrame contents
      let frames := frames ++ [frame]
      if frame.last then some (frames, next)
      else if counterMax ≤ e.position then none
      else if partSize ≤ (sealAll frames).length then some (frames, next)
      else fillPart contents partSize fuel next frames

/-- `none` is an error, and no part means that there was nothing left. -/
def encryptNextPart (contents : ℕ → List UInt8) (e : StreamingEncryptor) (partSize : ℕ) :
    Option (Option EncryptedPart × StreamingEncryptor) :=
  if e.finished then some (none, e)
  else (fillPart contents partSize (partSize + 1) e []).map fun filled =>
    (some ⟨filled.1⟩, filled.2)

/-- The first `n` parts, or fewer where the file ends. -/
def encryptParts (contents : ℕ → List UInt8) (partSize : ℕ) :
    ℕ → StreamingEncryptor → Option (List EncryptedPart × StreamingEncryptor)
  | 0, e => some ([], e)
  | n + 1, e =>
      match e.encryptNextPart contents partSize with
      | none => none
      | some (none, e) => some ([], e)
      | some (some part, e) =>
          (encryptParts contents partSize n e).map fun rest => (part :: rest.1, rest.2)

end StreamingEncryptor

/-- `StreamingDecryptor`: `feed` opens what is more than a frame, `finish` opens the rest. -/
def decryptBody (nonce : List UInt8) (aad : String) :
    ℕ → ℕ → List StoredByte → Option (List UInt8)
  | 0, _, _ => none
  | fuel + 1, position, body =>
      if chunkSize + tagSize < body.length then
        if counterMax ≤ position then none
        else
          (openFrame nonce aad position false (body.take (chunkSize + tagSize))).bind fun chunk =>
            (decryptBody nonce aad fuel (position + 1) (body.drop (chunkSize + tagSize))).map
              fun rest => chunk ++ rest
      else openFrame nonce aad position true body

def plainBytes (bytes : List StoredByte) : Option (List UInt8) :=
  bytes.mapM fun
    | .plain byte => some byte
    | .sealed _ _ => none

def decryptBytes (object : List StoredByte) (aad : String) : Option (List UInt8) :=
  if object.length < nonceSize then none
  else (plainBytes (object.take nonceSize)).bind fun nonce =>
    let body := object.drop nonceSize
    decryptBody nonce aad (body.length + 1) 0 body

def chunkFrames (nonce : List UInt8) (aad : String) (position : ℕ) (bytes : List UInt8) :
    List Frame :=
  if bytes.length ≤ chunkSize then [⟨nonce, aad, position, true, bytes⟩]
  else ⟨nonce, aad, position, false, bytes.take chunkSize⟩ ::
    chunkFrames nonce aad (position + 1) (bytes.drop chunkSize)
termination_by bytes.length
decreasing_by
  have hpos : 0 < chunkSize := by decide
  rw [List.length_drop]
  omega

theorem chunkSize_pos : 0 < chunkSize := by decide

theorem tagSize_pos : 0 < tagSize := by decide

section Sealing

variable {nonce : List UInt8} {aad : String} {position : ℕ} {bytes : List UInt8} {frame : Frame}

@[simp] theorem length_seal : frame.seal.length = frame.plaintext.length + tagSize := by
  simp [Frame.seal]

theorem sealAll_cons {frames : List Frame} :
    sealAll (frame :: frames) = frame.seal ++ sealAll frames := List.flatMap_cons

theorem sealAll_append {frames more : List Frame} :
    sealAll (frames ++ more) = sealAll frames ++ sealAll more := List.flatMap_append

theorem openFrame_seal (frame : Frame) :
    openFrame frame.nonce frame.aad frame.position frame.last frame.seal =
      some frame.plaintext := by
  have hhead : frame.seal.head? = some (.sealed frame 0) := by
    have hpos := tagSize_pos
    unfold Frame.seal
    rw [List.head?_map, List.head?_range, if_neg (by omega), Option.map_some]
  unfold openFrame
  rw [hhead]
  simp

theorem openFrame_eq_some {last : Bool} {body : List StoredByte}
    (h : openFrame nonce aad position last body = some bytes) :
    body = Frame.seal ⟨nonce, aad, position, last, bytes⟩ := by
  unfold openFrame at h
  split at h
  · split_ifs at h with hframe
    cases h
    obtain ⟨hbody, rfl, rfl, rfl, rfl⟩ := hframe
    exact hbody
  · cases h

theorem chunkFrames_short (h : bytes.length ≤ chunkSize) :
    chunkFrames nonce aad position bytes = [⟨nonce, aad, position, true, bytes⟩] := by
  rw [chunkFrames, if_pos h]

theorem chunkFrames_long (h : chunkSize < bytes.length) :
    chunkFrames nonce aad position bytes = ⟨nonce, aad, position, false, bytes.take chunkSize⟩ ::
      chunkFrames nonce aad (position + 1) (bytes.drop chunkSize) := by
  rw [chunkFrames, if_neg (by omega)]

theorem ciphertextLen_short {n : ℕ} (h : n ≤ chunkSize) :
    ciphertextLen n = nonceSize + (n + tagSize) := by
  have hframes : (n + chunkSize - 1) / chunkSize ≤ 1 := by
    have hpos := chunkSize_pos
    rw [← Nat.lt_succ_iff, Nat.div_lt_iff_lt_mul hpos]
    omega
  simp only [ciphertextLen]
  rw [Nat.max_eq_right hframes]
  omega

theorem ciphertextLen_long {n : ℕ} (h : chunkSize < n) :
    ciphertextLen n = ciphertextLen (n - chunkSize) + (chunkSize + tagSize) := by
  have hpos := chunkSize_pos
  have hframes : (n + chunkSize - 1) / chunkSize =
      (n - chunkSize + chunkSize - 1) / chunkSize + 1 := by
    rw [← Nat.add_div_right _ hpos]
    congr 1
    omega
  have hone : 1 ≤ (n - chunkSize + chunkSize - 1) / chunkSize := by
    rw [Nat.one_le_div_iff hpos]
    omega
  simp only [ciphertextLen]
  rw [hframes, Nat.max_eq_left (by omega), Nat.max_eq_left hone, Nat.add_mul]
  omega

theorem length_sealAll_chunkFrames (nonce : List UInt8) (aad : String) (position : ℕ)
    (bytes : List UInt8) :
    nonceSize + (sealAll (chunkFrames nonce aad position bytes)).length =
      ciphertextLen bytes.length := by
  fun_induction chunkFrames nonce aad position bytes with
  | case1 position bytes hshort =>
      rw [ciphertextLen_short hshort, sealAll_cons]
      simp [sealAll]
  | case2 position bytes hlong ih =>
      have htake : (bytes.take chunkSize).length = chunkSize := by
        rw [List.length_take]
        omega
      rw [List.length_drop] at ih
      rw [ciphertextLen_long (by omega), ← ih, sealAll_cons, List.length_append, length_seal, htake]
      omega

theorem ciphertextLen_strictMono : StrictMono ciphertextLen := by
  apply strictMono_nat_of_lt_succ
  intro n
  have hdiv : (n + chunkSize - 1) / chunkSize ≤ (n + 1 + chunkSize - 1) / chunkSize :=
    Nat.div_le_div_right (by omega)
  have hmul : max ((n + chunkSize - 1) / chunkSize) 1 * tagSize ≤
      max ((n + 1 + chunkSize - 1) / chunkSize) 1 * tagSize :=
    Nat.mul_le_mul_right _ (max_le_max_right 1 hdiv)
  simp only [ciphertextLen]
  omega

theorem tagSize_le_chunkFrames (nonce : List UInt8) (aad : String) (position : ℕ)
    (bytes : List UInt8) : tagSize ≤ (sealAll (chunkFrames nonce aad position bytes)).length := by
  by_cases hshort : bytes.length ≤ chunkSize
  · rw [chunkFrames_short hshort, sealAll_cons, List.length_append, length_seal]
    omega
  · rw [chunkFrames_long (by omega), sealAll_cons, List.length_append, length_seal]
    omega

theorem decryptBody_chunkFrames {fuel : ℕ}
    (hfits : ∀ frame ∈ chunkFrames nonce aad position bytes, frame.last = false →
      frame.position < counterMax)
    (hfuel : (sealAll (chunkFrames nonce aad position bytes)).length < fuel) :
    decryptBody nonce aad fuel position (sealAll (chunkFrames nonce aad position bytes)) =
      some bytes := by
  have htag := tagSize_pos
  induction fuel generalizing position bytes with
  | zero => omega
  | succ fuel ih =>
      by_cases hshort : bytes.length ≤ chunkSize
      · rw [chunkFrames_short hshort]
        have hbody : sealAll [⟨nonce, aad, position, true, bytes⟩] =
            Frame.seal ⟨nonce, aad, position, true, bytes⟩ := by
          simp [sealAll]
        have hlen : ¬ chunkSize + tagSize <
            (Frame.seal ⟨nonce, aad, position, true, bytes⟩).length := by
          rw [length_seal]
          simp only
          omega
        rw [hbody, decryptBody, if_neg hlen]
        exact openFrame_seal ⟨nonce, aad, position, true, bytes⟩
      · have hlong : chunkSize < bytes.length := by omega
        rw [chunkFrames_long hlong] at hfits hfuel ⊢
        rw [sealAll_cons] at hfuel ⊢
        have hfirst : (Frame.seal ⟨nonce, aad, position, false, bytes.take chunkSize⟩).length =
            chunkSize + tagSize := by
          rw [length_seal, List.length_take]
          omega
        have hrest := tagSize_le_chunkFrames nonce aad (position + 1) (bytes.drop chunkSize)
        have hposition : position < counterMax := hfits _ (List.mem_cons_self ..) rfl
        rw [List.length_append] at hfuel
        rw [decryptBody, if_pos (by rw [List.length_append]; omega), if_neg (by omega),
          List.take_left' hfirst, List.drop_left' hfirst]
        have hopen : openFrame nonce aad position false
            (Frame.seal ⟨nonce, aad, position, false, bytes.take chunkSize⟩) =
              some (bytes.take chunkSize) := openFrame_seal _
        have hfitsRest := fun frame hmem => hfits frame (List.mem_cons_of_mem _ hmem)
        rw [hopen, Option.bind_some, ih hfitsRest (by omega), Option.map_some,
          List.take_append_drop]

end Sealing

section Reading

variable {content : List UInt8} {e next : StreamingEncryptor} {partSize : ℕ}

def StreamingEncryptor.remaining (e : StreamingEncryptor) (content : List UInt8) : List Frame :=
  if e.finished then [] else chunkFrames e.nonce e.aad e.position (content.drop e.offset)

theorem readUpTo_still (content : List UInt8) (n clock offset : ℕ) :
    (readUpTo (fun _ => content) n clock offset).1 = (content.drop offset).take n := by
  induction n generalizing clock offset with
  | zero => simp [readUpTo]
  | succ n ih =>
      unfold readUpTo
      cases hbyte : content[offset]? with
      | none =>
          have hpast : content.length ≤ offset := List.getElem?_eq_none_iff.mp hbyte
          rw [List.drop_eq_nil_of_le hpast, List.take_nil]
      | some byte =>
          obtain ⟨hlt, rfl⟩ := List.getElem?_eq_some_iff.mp hbyte
          rw [List.drop_eq_getElem_cons hlt, List.take_succ_cons, ← ih (clock + 1)]

theorem readFrame_still (content : List UInt8) (hunfinished : e.finished = false) :
    e.remaining content = (e.readFrame fun _ => content).1 ::
      (e.readFrame fun _ => content).2.remaining content ∧
    (e.readFrame fun _ => content).1.last = (e.readFrame fun _ => content).2.finished ∧
    (e.readFrame fun _ => content).1.position = e.position := by
  refine ⟨?_, rfl, rfl⟩
  have hpos := chunkSize_pos
  have hbytes := readUpTo_still content chunkSize e.clock e.offset
  unfold StreamingEncryptor.readFrame StreamingEncryptor.remaining
  generalize readUpTo (fun _ => content) chunkSize e.clock e.offset = read at hbytes
  obtain ⟨bytes, clock⟩ := read
  simp only at hbytes ⊢
  subst hbytes
  rw [hunfinished, if_neg Bool.false_ne_true]
  have hlen : ((content.drop e.offset).take chunkSize).length =
      min chunkSize (content.length - e.offset) := by
    rw [List.length_take, List.length_drop]
  by_cases hshort : (content.drop e.offset).length ≤ chunkSize
  · have hlast : (((content.drop e.offset).take chunkSize).isEmpty ||
        (content[e.offset + ((content.drop e.offset).take chunkSize).length]?).isNone) = true := by
      rw [List.length_drop] at hshort
      rw [Bool.or_eq_true, Option.isNone_iff_eq_none, List.getElem?_eq_none_iff, hlen]
      right
      omega
    rw [hlast, if_pos rfl, chunkFrames_short hshort, List.take_of_length_le hshort]
  · have hnotLast : (((content.drop e.offset).take chunkSize).isEmpty ||
        (content[e.offset + ((content.drop e.offset).take chunkSize).length]?).isNone) = false := by
      rw [List.length_drop] at hshort
      have hmore : e.offset + min chunkSize (content.length - e.offset) < content.length := by
        omega
      rw [Bool.or_eq_false_iff, List.isEmpty_eq_false_iff, ← List.length_pos_iff, hlen,
        List.getElem?_eq_getElem hmore]
      exact ⟨by omega, rfl⟩
    rw [List.length_drop] at hshort
    rw [hnotLast, if_neg Bool.false_ne_true, chunkFrames_long (by rw [List.length_drop]; omega),
      hlen, Nat.min_eq_left (by omega), List.drop_drop]

def Counted (frames : List Frame) : Prop :=
  ∀ frame ∈ frames, frame.last = false → frame.position < counterMax

theorem Counted.append {frames more : List Frame} (h : Counted frames) (h' : Counted more) :
    Counted (frames ++ more) := by
  intro frame hmem hlast
  rcases List.mem_append.mp hmem with hmem | hmem
  · exact h frame hmem hlast
  · exact h' frame hmem hlast

theorem fillPart_still {fuel : ℕ} {frames filled : List Frame} (hunfinished : e.finished = false)
    (h : StreamingEncryptor.fillPart (fun _ => content) partSize fuel e frames =
      some (filled, next)) :
    ∃ new, filled = frames ++ new ∧ e.remaining content = new ++ next.remaining content ∧
      Counted new := by
  induction fuel generalizing e frames with
  | zero =>
      cases h
      exact ⟨[], (List.append_nil _).symm, rfl, fun frame hmem => by cases hmem⟩
  | succ fuel ih =>
      obtain ⟨hremaining, hfinished, hposition⟩ := readFrame_still content hunfinished
      unfold StreamingEncryptor.fillPart at h
      generalize e.readFrame (fun _ => content) = read at h hremaining hfinished hposition
      obtain ⟨frame, e'⟩ := read
      simp only at h hremaining hfinished hposition
      split_ifs at h with hlast hcounter hfull
      · cases h
        refine ⟨[frame], rfl, hremaining, ?_⟩
        intro f hmem hopen
        rw [List.mem_singleton.mp hmem, hlast] at hopen
        cases hopen
      · cases h
        refine ⟨[frame], rfl, hremaining, ?_⟩
        intro f hmem _
        rw [List.mem_singleton.mp hmem, hposition]
        omega
      · have hopen : e'.finished = false := by
          rw [← hfinished]
          exact Bool.not_eq_true _ ▸ hlast
        obtain ⟨new, rfl, hnew, hcounted⟩ := ih hopen h
        refine ⟨frame :: new, by simp, by rw [hremaining, hnew, List.cons_append], ?_⟩
        have hfirst : Counted [frame] := by
          intro f hmem _
          rw [List.mem_singleton.mp hmem, hposition]
          omega
        exact hfirst.append hcounted

theorem encryptParts_still {n : ℕ} {parts : List EncryptedPart}
    (h : e.encryptParts (fun _ => content) partSize n = some (parts, next)) :
    e.remaining content = parts.flatMap EncryptedPart.frames ++ next.remaining content ∧
      Counted (parts.flatMap EncryptedPart.frames) := by
  induction n generalizing e parts with
  | zero =>
      cases h
      exact ⟨rfl, fun frame hmem => by cases hmem⟩
  | succ n ih =>
      unfold StreamingEncryptor.encryptParts StreamingEncryptor.encryptNextPart at h
      by_cases hfinished : e.finished = true
      · rw [if_pos hfinished] at h
        cases h
        exact ⟨rfl, fun frame hmem => by cases hmem⟩
      · rw [if_neg hfinished] at h
        cases hfill : StreamingEncryptor.fillPart (fun _ => content) partSize (partSize + 1) e []
          with
        | none =>
            rw [hfill] at h
            cases h
        | some filled =>
            obtain ⟨frames, e'⟩ := filled
            rw [hfill] at h
            simp only [Option.map_some, Option.map_eq_some_iff, Prod.mk.injEq] at h
            obtain ⟨⟨rest, last⟩, hrest, rfl, rfl⟩ := h
            obtain ⟨new, hnew, hremaining, hcounted⟩ :=
              fillPart_still (Bool.not_eq_true _ ▸ hfinished) hfill
            obtain ⟨htail, hcountedTail⟩ := ih hrest
            rw [List.nil_append] at hnew
            subst hnew
            rw [List.flatMap_cons]
            refine ⟨by rw [hremaining, htail, List.append_assoc], hcounted.append hcountedTail⟩

theorem sealAll_flatMap (parts : List EncryptedPart) :
    sealAll (parts.flatMap EncryptedPart.frames) = parts.flatMap EncryptedPart.ciphertext := by
  simp only [sealAll, List.flatMap_assoc]
  rfl

theorem plainBytes_plain (nonce : List UInt8) : plainBytes (nonce.map .plain) = some nonce := by
  induction nonce with
  | nil => rfl
  | cons byte nonce ih =>
      unfold plainBytes at ih ⊢
      rw [List.map_cons, List.mapM_cons, ih]
      rfl

theorem decryptBytes_framed {nonce : List UInt8} {aad : String} {body : List StoredByte}
    (hnonce : nonce.length = nonceSize) : decryptBytes (nonce.map .plain ++ body) aad =
      decryptBody nonce aad (body.length + 1) 0 body := by
  have hbegins : (nonce.map StoredByte.plain).length = nonceSize := by
    rw [List.length_map, hnonce]
  rw [decryptBytes, if_neg (by rw [List.length_append]; omega), List.take_left' hbegins,
    List.drop_left' hbegins, plainBytes_plain]
  rfl

theorem decryptBytes_still {n : ℕ} {nonce : List UInt8} {aad : String}
    {parts : List EncryptedPart} (hnonce : nonce.length = nonceSize)
    (h : (StreamingEncryptor.new nonce aad).encryptParts (fun _ => content) partSize n =
      some (parts, next)) (hfinished : next.finished = true) :
    decryptBytes (nonce.map .plain ++ parts.flatMap EncryptedPart.ciphertext) aad = some content ∧
      nonceSize + (parts.flatMap EncryptedPart.ciphertext).length =
        ciphertextLen content.length := by
  obtain ⟨hframes, hcounted⟩ := encryptParts_still h
  have hrest : next.remaining content = [] := if_pos hfinished
  have hall : (StreamingEncryptor.new nonce aad).remaining content =
      chunkFrames nonce aad 0 content := rfl
  rw [hrest, List.append_nil, hall] at hframes
  rw [← sealAll_flatMap, ← hframes]
  rw [← hframes] at hcounted
  refine ⟨?_, length_sealAll_chunkFrames nonce aad 0 content⟩
  rw [decryptBytes_framed hnonce]
  exact decryptBody_chunkFrames hcounted (Nat.lt_succ_self _)

theorem encryptParts_mono {contents : ℕ → List UInt8} {n k : ℕ}
    {parts more : List EncryptedPart} {last : StreamingEncryptor} (hle : n ≤ k)
    (h : e.encryptParts contents partSize n = some (parts, next))
    (h' : e.encryptParts contents partSize k = some (more, last)) :
    parts <+: more ∧ (next.finished = true → parts = more) := by
  induction n generalizing k e parts more with
  | zero =>
      cases h
      refine ⟨List.nil_prefix, fun hfinished => ?_⟩
      cases k with
      | zero =>
          cases h'
          rfl
      | succ k =>
          unfold StreamingEncryptor.encryptParts StreamingEncryptor.encryptNextPart at h'
          rw [if_pos hfinished] at h'
          cases h'
          rfl
  | succ n ih =>
      obtain ⟨k, rfl⟩ : ∃ j, k = j + 1 := ⟨k - 1, by omega⟩
      unfold StreamingEncryptor.encryptParts at h h'
      cases hpart : e.encryptNextPart contents partSize with
      | none =>
          rw [hpart] at h
          cases h
      | some first =>
          obtain ⟨part, e'⟩ := first
          rw [hpart] at h h'
          cases part with
          | none =>
              cases h
              cases h'
              exact ⟨List.prefix_refl _, fun _ => rfl⟩
          | some part =>
              simp only [Option.map_eq_some_iff, Prod.mk.injEq] at h h'
              obtain ⟨⟨rest, u⟩, hrest, rfl, rfl⟩ := h
              obtain ⟨⟨rest', u'⟩, hrest', rfl, rfl⟩ := h'
              obtain ⟨hbegins, hsame⟩ := ih (by omega) hrest hrest'
              refine ⟨?_, fun hfinished => by rw [hsame hfinished]⟩
              rw [List.cons_prefix_cons]
              exact ⟨rfl, hbegins⟩

theorem encryptParts_ne_nil {contents : ℕ → List UInt8} {n : ℕ} {nonce : List UInt8}
    {aad : String} {parts : List EncryptedPart}
    (h : (StreamingEncryptor.new nonce aad).encryptParts contents partSize n = some (parts, next))
    (hfinished : next.finished = true) : parts ≠ [] := by
  rintro rfl
  cases n with
  | zero =>
      cases h
      cases hfinished
  | succ n =>
      unfold StreamingEncryptor.encryptParts StreamingEncryptor.encryptNextPart at h
      rw [if_neg (by simp [StreamingEncryptor.new])] at h
      cases hfill : StreamingEncryptor.fillPart contents partSize (partSize + 1)
          (StreamingEncryptor.new nonce aad) [] with
      | none =>
          rw [hfill] at h
          cases h
      | some filled =>
          rw [hfill] at h
          simp at h

end Reading

end FileMirror
