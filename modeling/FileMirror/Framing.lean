import FileMirror.PartSizes
import Mathlib.Data.List.Perm.Basic

set_option autoImplicit false

namespace FileMirror

def chunks (bytes : List UInt8) : List (List UInt8) :=
  if bytes.length = 0 then [] else bytes.take chunkSize :: chunks (bytes.drop chunkSize)
termination_by bytes.length
decreasing_by
  have hpos := chunkSize_pos
  rw [List.length_drop]
  omega

/-- `encrypt_next_in_place` over chunks; `none` is an error. -/
def sealNext (nonce : List UInt8) (aad : String) : ℕ → List (List UInt8) → Option (List Frame)
  | _, [] => some []
  | position, chunk :: chunks =>
      if counterMax ≤ position then none
      else (sealNext nonce aad (position + 1) chunks).map (⟨nonce, aad, position, false, chunk⟩ :: ·)

def lastStart (plaintextLen : ℕ) : ℕ := (plaintextLen - 1) / chunkSize * chunkSize

def encryptBytes (nonce : List UInt8) (aad : String) (plaintext : List UInt8) :
    Option (List StoredByte) :=
  let first := chunks (plaintext.take (lastStart plaintext.length))
  let rest := plaintext.drop (lastStart plaintext.length)
  (sealNext nonce aad 0 first).map fun frames =>
    nonce.map .plain ++ sealAll frames ++ Frame.seal ⟨nonce, aad, first.length, true, rest⟩

/-- `encrypt_next_part` with a size for each part. -/
def StreamingEncryptor.encryptSized (contents : ℕ → List UInt8) :
    List ℕ → StreamingEncryptor → Option (List EncryptedPart × StreamingEncryptor)
  | [], e => some ([], e)
  | partSize :: sizes, e =>
      match e.encryptNextPart contents partSize with
      | none => none
      | some (none, e) => encryptSized contents sizes e
      | some (some part, e) =>
          (encryptSized contents sizes e).map fun rest => (part :: rest.1, rest.2)

inductive Forged (frames : List Frame) : List StoredByte → Prop
  | cut {body : List StoredByte} (hfront : body <+: sealAll frames) (hne : body ≠ sealAll frames) :
      Forged frames body
  | extended {more : List StoredByte} (hne : more ≠ []) : Forged frames (sealAll frames ++ more)
  | reordered {others : List Frame} (hperm : others.Perm frames) (hne : others ≠ frames) :
      Forged frames (sealAll others)
  | changed {i : ℕ} {byte : StoredByte} (hi : i < (sealAll frames).length)
      (hne : (sealAll frames)[i] ≠ byte) : Forged frames ((sealAll frames).set i byte)

structure StreamingDecryptor where
  nonce : List UInt8
  aad : String
  position : ℕ
  buffer : List StoredByte

namespace StreamingDecryptor

def new (nonce : List UInt8) (aad : String) : StreamingDecryptor := ⟨nonce, aad, 0, []⟩

def drain (d : StreamingDecryptor) : Option (List UInt8 × StreamingDecryptor) :=
  if frameSize < d.buffer.length then
    if counterMax ≤ d.position then none
    else
      (openFrame d.nonce d.aad d.position false (d.buffer.take frameSize)).bind fun chunk =>
        (drain { d with position := d.position + 1, buffer := d.buffer.drop frameSize }).map
          fun rest => (chunk ++ rest.1, rest.2)
  else some ([], d)
termination_by d.buffer.length
decreasing_by
  have hpos := frameSize_pos
  rw [List.length_drop]
  omega

def feed (d : StreamingDecryptor) (bytes : List StoredByte) :
    Option (List UInt8 × StreamingDecryptor) :=
  drain { d with buffer := d.buffer ++ bytes }

def finish (d : StreamingDecryptor) : Option (List UInt8) :=
  openFrame d.nonce d.aad d.position true d.buffer

/-- What `feed` gives for one piece after another until one fails, and what `finish` gives if none
does. -/
def receive : StreamingDecryptor → List (List StoredByte) → List UInt8 × Option (List UInt8)
  | d, [] => ([], d.finish)
  | d, piece :: pieces =>
      match d.feed piece with
      | none => ([], none)
      | some (plaintext, d) =>
          let rest := receive d pieces
          (plaintext ++ rest.1, rest.2)

end StreamingDecryptor

section Encoding

variable {nonce : List UInt8} {aad : String} {position : ℕ} {bytes content : List UInt8}
  {e next : StreamingEncryptor}

theorem chunks_nil : chunks [] = [] := by
  rw [chunks, if_pos List.length_nil]

theorem chunks_of_pos (h : 0 < bytes.length) :
    chunks bytes = bytes.take chunkSize :: chunks (bytes.drop chunkSize) := by
  rw [chunks, if_neg (by omega)]

theorem lastStart_short {n : ℕ} (h : n ≤ chunkSize) : lastStart n = 0 := by
  have hpos := chunkSize_pos
  unfold lastStart
  rw [Nat.div_eq_of_lt (by omega), Nat.zero_mul]

theorem lastStart_long {n : ℕ} (h : chunkSize < n) :
    lastStart n = chunkSize + lastStart (n - chunkSize) := by
  have hpos := chunkSize_pos
  have hdiv : (n - 1) / chunkSize = (n - chunkSize - 1) / chunkSize + 1 := by
    rw [← Nat.add_div_right _ hpos]
    congr 1
    omega
  unfold lastStart
  rw [hdiv, Nat.succ_mul, Nat.add_comm]

theorem frameCount_short {n : ℕ} (h : n ≤ chunkSize) : frameCount n = 1 := by
  have hpos := chunkSize_pos
  have hone : (n + chunkSize - 1) / chunkSize ≤ 1 := by
    rw [← Nat.lt_succ_iff, Nat.div_lt_iff_lt_mul hpos]
    omega
  exact Nat.max_eq_right hone

theorem frameCount_long {n : ℕ} (h : chunkSize < n) :
    frameCount n = frameCount (n - chunkSize) + 1 := by
  have hlen := length_chunkFrames [] "" 0 (List.replicate n 0)
  have hlong : chunkSize < (List.replicate n (0 : UInt8)).length := by
    rwa [List.length_replicate]
  rw [chunkFrames_long hlong, List.length_cons, length_chunkFrames, List.length_drop,
    List.length_replicate] at hlen
  exact hlen.symm

theorem one_le_frameCount (n : ℕ) : 1 ≤ frameCount n := le_max_right _ _

theorem sealNext_chunks (nonce : List UInt8) (aad : String) (bytes : List UInt8)
    (hposition : position ≤ counterMax) :
    (sealNext nonce aad position (chunks (bytes.take (lastStart bytes.length)))).map (· ++
        [⟨nonce, aad, position + (chunks (bytes.take (lastStart bytes.length))).length, true,
          bytes.drop (lastStart bytes.length)⟩]) =
      if position + frameCount bytes.length ≤ counterMax + 1
      then some (chunkFrames nonce aad position bytes) else none := by
  have hpos := chunkSize_pos
  fun_induction chunkFrames nonce aad position bytes with
  | case1 position bytes hshort =>
      rw [lastStart_short hshort, List.take_zero, chunks_nil, List.drop_zero,
        frameCount_short hshort, if_pos (by omega)]
      rfl
  | case2 position bytes hlong ih =>
      have hlen : chunkSize < bytes.length := by omega
      have hone := one_le_frameCount (bytes.length - chunkSize)
      have hfirst : (bytes.take (lastStart bytes.length)).take chunkSize = bytes.take chunkSize := by
        rw [List.take_take, lastStart_long hlen, Nat.min_eq_left (by omega)]
      have hrest : (bytes.take (lastStart bytes.length)).drop chunkSize =
          (bytes.drop chunkSize).take (lastStart (bytes.drop chunkSize).length) := by
        rw [List.drop_take, List.length_drop, lastStart_long hlen, Nat.add_sub_cancel_left]
      have hstart : 0 < (bytes.take (lastStart bytes.length)).length := by
        rw [List.length_take, lastStart_long hlen]
        omega
      have hlast : bytes.drop (lastStart bytes.length) =
          (bytes.drop chunkSize).drop (lastStart (bytes.drop chunkSize).length) := by
        rw [List.drop_drop, List.length_drop, lastStart_long hlen]
      rw [chunks_of_pos hstart, hfirst, hrest, hlast, frameCount_long hlen]
      unfold sealNext
      by_cases hcounter : counterMax ≤ position
      · rw [if_pos hcounter, if_neg (by omega)]
        rfl
      · have hih := ih (by omega)
        rw [if_neg hcounter, Option.map_map]
        rw [List.length_drop] at hih ⊢
        generalize chunks ((bytes.drop chunkSize).take (lastStart (bytes.length - chunkSize))) =
          following at hih ⊢
        have hcount : position + (bytes.take chunkSize :: following).length =
            position + 1 + following.length := by
          rw [List.length_cons]
          omega
        have hadd : position + 1 + frameCount (bytes.length - chunkSize) =
            position + (frameCount (bytes.length - chunkSize) + 1) := by
          omega
        rw [hadd] at hih
        rw [hcount]
        by_cases hfits : position + (frameCount (bytes.length - chunkSize) + 1) ≤ counterMax + 1
        · rw [if_pos hfits, Option.map_eq_some_iff] at hih
          obtain ⟨frames, hfollowing, hframes⟩ := hih
          rw [if_pos hfits, hfollowing, ← hframes]
          rfl
        · rw [if_neg hfits, Option.map_eq_none_iff] at hih
          rw [if_neg hfits, hih]
          rfl

theorem encryptBytes_eq (nonce : List UInt8) (aad : String) (plaintext : List UInt8) :
    encryptBytes nonce aad plaintext =
      if frameCount plaintext.length ≤ counterMax + 1
      then some (nonce.map .plain ++ sealAll (chunkFrames nonce aad 0 plaintext)) else none := by
  have hsealed := sealNext_chunks nonce aad plaintext (Nat.zero_le counterMax)
  unfold encryptBytes
  dsimp only
  rw [Nat.zero_add, Nat.zero_add] at hsealed
  generalize chunks (plaintext.take (lastStart plaintext.length)) = first at hsealed ⊢
  by_cases hfits : frameCount plaintext.length ≤ counterMax + 1
  · rw [if_pos hfits, Option.map_eq_some_iff] at hsealed
    obtain ⟨frames, hfirst, hframes⟩ := hsealed
    rw [if_pos hfits, hfirst, ← hframes, Option.map_some, sealAll_append, List.append_assoc]
    simp [sealAll]
  · rw [if_neg hfits, Option.map_eq_none_iff] at hsealed
    rw [if_neg hfits, hsealed]
    rfl

theorem encryptSized_still (sizes : List ℕ) (hcounted : Counted (e.remaining content)) :
    ∃ parts next, e.encryptSized (fun _ => content) sizes = some (parts, next) ∧
      parts.flatMap EncryptedPart.ciphertext ++ sealAll (next.remaining content) =
        sealAll (e.remaining content) ∧
      ((e.remaining content).length ≤ sizes.length → next.remaining content = []) := by
  induction sizes generalizing e with
  | nil =>
      refine ⟨[], e, rfl, rfl, fun hlen => ?_⟩
      exact List.length_eq_zero_iff.mp (Nat.le_zero.mp hlen)
  | cons partSize sizes ih =>
      unfold StreamingEncryptor.encryptSized
      cases hopen : e.finished with
      | true =>
          have hnone : e.encryptNextPart (fun _ => content) partSize = some (none, e) := by
            unfold StreamingEncryptor.encryptNextPart
            rw [if_pos hopen]
          obtain ⟨parts, last, hparts, hbytes, hend⟩ := ih hcounted
          rw [hnone]
          refine ⟨parts, last, hparts, hbytes, fun _ => ?_⟩
          apply hend
          rw [remaining_finished hopen]
          exact Nat.zero_le _
      | false =>
          obtain ⟨next, hpart, hleft, _⟩ := encryptNextPart_takes partSize hopen hcounted
          have hone := one_le_framesPerPart partSize
          have hmore : Counted (next.remaining content) := by
            rw [hleft]
            exact fun f hf => hcounted f (List.drop_subset _ _ hf)
          obtain ⟨parts, last, hparts, hbytes, hend⟩ := ih hmore
          rw [hpart]
          dsimp only
          rw [hparts, Option.map_some]
          refine ⟨_, last, rfl, ?_, fun hlen => hend ?_⟩
          · rw [List.flatMap_cons, List.append_assoc, hbytes, hleft]
            change sealAll _ ++ sealAll _ = _
            rw [← sealAll_append, List.take_append_drop]
          · rw [List.length_cons] at hlen
            rw [hleft, List.length_drop]
            omega

end Encoding

section Decoding

variable {nonce : List UInt8} {aad : String} {position : ℕ} {d next : StreamingDecryptor}
  {frame : Frame} {frames more : List Frame} {bytes : List UInt8} {body : List StoredByte}

namespace StreamingDecryptor

theorem drain_held (h : d.buffer.length ≤ frameSize) : d.drain = some ([], d) := by
  rw [drain, if_neg (by omega)]

theorem held_drain (h : d.drain = some (bytes, next)) : next.buffer.length ≤ frameSize := by
  fun_induction drain d generalizing bytes with
  | case1 d hlong hcounter => cases h
  | case2 d hlong hcounter ih =>
      obtain ⟨chunk, _, hrest⟩ := Option.bind_eq_some_iff.mp h
      obtain ⟨⟨rest, last⟩, hdrain, heq⟩ := Option.map_eq_some_iff.mp hrest
      cases heq
      exact ih hdrain
  | case3 d hshort =>
      cases h
      omega

theorem drain_append (d : StreamingDecryptor) (body : List StoredByte) :
    drain { d with buffer := d.buffer ++ body } = d.drain.bind fun first =>
      (drain { first.2 with buffer := first.2.buffer ++ body }).map fun rest =>
        (first.1 ++ rest.1, rest.2) := by
  fun_induction drain d with
  | case1 d hlong hcounter =>
      have hlonger : frameSize < (d.buffer ++ body).length := by
        rw [List.length_append]
        omega
      rw [drain, if_pos hlonger, if_pos hcounter]
      rfl
  | case2 d hlong hcounter ih =>
      have hlonger : frameSize < (d.buffer ++ body).length := by
        rw [List.length_append]
        omega
      have htake : (d.buffer ++ body).take frameSize = d.buffer.take frameSize :=
        List.take_append_of_le_length (by omega)
      have hdrop : (d.buffer ++ body).drop frameSize = d.buffer.drop frameSize ++ body :=
        List.drop_append_of_le_length (by omega)
      rw [drain, if_pos hlonger, if_neg hcounter]
      dsimp only at ih ⊢
      rw [htake, hdrop, ih, Option.bind_assoc]
      congr 1
      funext chunk
      rw [Option.map_bind, Option.bind_map]
      congr 1
      funext first
      dsimp only [Function.comp_apply]
      rw [Option.map_map]
      congr 1
      funext rest
      simp only [Function.comp_apply, List.append_assoc]
  | case3 d hshort =>
      rw [Option.bind_some]
      exact (Option.map_id' ..).symm

theorem receive_flatten (pieces : List (List StoredByte)) (hheld : d.buffer.length ≤ frameSize) :
    (d.receive pieces).2.map ((d.receive pieces).1 ++ ·) =
      (d.feed pieces.flatten).bind fun fed => fed.2.finish.map (fed.1 ++ ·) := by
  induction pieces generalizing d with
  | nil =>
      have hfed : d.feed [] = some ([], d) := by
        unfold feed
        rw [List.append_nil]
        exact drain_held hheld
      rw [List.flatten_nil, hfed]
      rfl
  | cons piece pieces ih =>
      have happend := drain_append { d with buffer := d.buffer ++ piece } pieces.flatten
      have hfeed : d.feed (piece :: pieces).flatten = (d.feed piece).bind fun first =>
          (first.2.feed pieces.flatten).map fun rest => (first.1 ++ rest.1, rest.2) := by
        unfold feed
        rw [List.flatten_cons, ← List.append_assoc]
        exact happend
      unfold receive
      rw [hfeed]
      cases hfirst : d.feed piece with
      | none => rfl
      | some first =>
          obtain ⟨plaintext, next⟩ := first
          have hrest := ih (held_drain hfirst)
          rw [Option.bind_some, Option.bind_map]
          dsimp only [Function.comp_def]
          have hlonger := congrArg (Option.map (plaintext ++ ·)) hrest
          rw [Option.map_map, Option.map_bind] at hlonger
          simp only [Function.comp_def, Option.map_map, ← List.append_assoc] at hlonger
          exact hlonger

theorem decryptBody_eq {fuel : ℕ} (hfuel : body.length < fuel) :
    decryptBody nonce aad fuel position body =
      (drain ⟨nonce, aad, position, body⟩).bind fun fed => fed.2.finish.map (fed.1 ++ ·) := by
  have hpos := frameSize_pos
  induction fuel generalizing position body with
  | zero => omega
  | succ fuel ih =>
      unfold decryptBody
      rw [drain]
      change (if frameSize < body.length then _ else _) = _
      by_cases hlong : frameSize < body.length
      · rw [if_pos hlong, if_pos hlong]
        by_cases hcounter : counterMax ≤ position
        · rw [if_pos hcounter, if_pos hcounter]
          rfl
        · rw [if_neg hcounter, if_neg hcounter, Option.bind_assoc]
          congr 1
          funext chunk
          have hshorter : (body.drop frameSize).length < fuel := by
            rw [List.length_drop]
            omega
          have hbody := @ih (position + 1) _ hshorter
          have hrest := congrArg (Option.map (chunk ++ ·)) hbody
          rw [Option.map_bind] at hrest
          rw [Option.bind_map]
          simp only [Function.comp_def, Option.map_map, ← List.append_assoc] at hrest ⊢
          exact hrest
      · rw [if_neg hlong, if_neg hlong, Option.bind_some]
        exact (Option.map_id' ..).symm

theorem drain_opens (h : d.drain = some (bytes, next)) :
    ∃ frames : List Frame, frames.map Frame.position = List.range' d.position frames.length ∧
      (∀ frame ∈ frames, frame.last = false) ∧ bytes = frames.flatMap Frame.plaintext ∧
      d.buffer = sealAll frames ++ next.buffer ∧ next.position = d.position + frames.length := by
  fun_induction drain d generalizing bytes with
  | case1 d hlong hcounter => cases h
  | case2 d hlong hcounter ih =>
      obtain ⟨chunk, hopen, hrest⟩ := Option.bind_eq_some_iff.mp h
      obtain ⟨⟨rest, last⟩, hdrain, heq⟩ := Option.map_eq_some_iff.mp hrest
      cases heq
      obtain ⟨frames, hplaced, hopened, rfl, hbuffer, hposition⟩ := ih hdrain
      refine ⟨⟨d.nonce, d.aad, d.position, false, chunk⟩ :: frames, ?_, ?_, ?_, ?_, ?_⟩
      · rw [List.map_cons, List.length_cons, List.range'_succ, hplaced]
      · exact List.forall_mem_cons.mpr ⟨rfl, hopened⟩
      · rw [List.flatMap_cons]
      · rw [sealAll_cons, List.append_assoc, ← openFrame_eq_some hopen]
        dsimp only at hbuffer
        rw [← hbuffer, List.take_append_drop]
      · rw [hposition, List.length_cons]
        dsimp only
        omega
  | case3 d hshort =>
      cases h
      exact ⟨[], rfl, List.forall_mem_nil _, rfl, rfl, rfl⟩

theorem receive_opens (pieces : List (List StoredByte)) :
    ∃ frames : List Frame, frames.map Frame.position = List.range' d.position frames.length ∧
      (∀ frame ∈ frames, frame.last = false) ∧
      (d.receive pieces).1 = frames.flatMap Frame.plaintext ∧
      sealAll frames <+: d.buffer ++ pieces.flatten ∧
      ∀ rest ∈ (d.receive pieces).2, ∃ frame : Frame,
        frame.position = d.position + frames.length ∧ frame.last = true ∧
        frame.plaintext = rest ∧ d.buffer ++ pieces.flatten = sealAll (frames ++ [frame]) := by
  induction pieces generalizing d with
  | nil =>
      refine ⟨[], rfl, List.forall_mem_nil _, rfl, List.nil_prefix, fun rest hrest => ?_⟩
      refine ⟨⟨d.nonce, d.aad, d.position, true, rest⟩, rfl, rfl, rfl, ?_⟩
      rw [List.flatten_nil, List.append_nil, openFrame_eq_some hrest]
      simp [sealAll]
  | cons piece pieces ih =>
      unfold receive
      cases hfirst : d.feed piece with
      | none =>
          refine ⟨[], rfl, List.forall_mem_nil _, rfl, List.nil_prefix, fun rest hrest => ?_⟩
          cases hrest
      | some first =>
          obtain ⟨plaintext, next⟩ := first
          obtain ⟨frames, hplaced, hopened, rfl, hbuffer, hposition⟩ := drain_opens hfirst
          obtain ⟨more, hplacedMore, hopenedMore, hout, hbegins, hend⟩ := ih (d := next)
          dsimp only at hplaced hbuffer hposition ⊢
          rw [List.flatten_cons, ← List.append_assoc, hbuffer, List.append_assoc]
          refine ⟨frames ++ more, ?_, ?_, ?_, ?_, fun rest hrest => ?_⟩
          · rw [List.map_append, hplaced, hplacedMore, hposition, List.length_append,
              List.range'_append_1]
          · exact fun frame hframe => (List.mem_append.mp hframe).elim (hopened frame)
              (hopenedMore frame)
          · rw [hout, List.flatMap_append]
          · rw [sealAll_append]
            exact (List.prefix_append_right_inj _).mpr hbegins
          · obtain ⟨frame, hframe, hlast, hplain, hbody⟩ := hend rest hrest
            refine ⟨frame, ?_, hlast, hplain, ?_⟩
            · rw [hframe, hposition, List.length_append, Nat.add_assoc]
            · rw [hbody, List.append_assoc, ← sealAll_append]

end StreamingDecryptor

theorem seal_ne_nil (frame : Frame) : frame.seal ≠ [] := by
  have hpos := tagSize_pos
  rw [← List.length_pos_iff, length_seal]
  omega

theorem getElem_seal {i : ℕ} (h : i < frame.plaintext.length + tagSize) :
    frame.seal[i]? = some (.sealed frame i) := by
  unfold Frame.seal
  rw [List.getElem?_map, List.getElem?_range h]
  rfl

theorem eq_of_getElem_sealAll {other : Frame} {i : ℕ} (hi : i < tagSize)
    (h : (sealAll (frame :: frames))[i]? = (sealAll (other :: more))[i]?) : frame = other := by
  rw [sealAll_cons, sealAll_cons, List.getElem?_append_left (by rw [length_seal]; omega),
    List.getElem?_append_left (by rw [length_seal]; omega), getElem_seal (by omega),
    getElem_seal (by omega)] at h
  cases h
  rfl

theorem compare_of_sealAll (h : sealAll frames <+: sealAll more ++ body) :
    frames <+: more ∨ more <+: frames := by
  have hpos := tagSize_pos
  induction frames generalizing more with
  | nil => exact .inl List.nil_prefix
  | cons frame frames ih =>
      cases more with
      | nil => exact .inr List.nil_prefix
      | cons other more =>
          have hsame : frame = other := by
            obtain ⟨rest, hrest⟩ := h
            have hleft : (sealAll (frame :: frames) ++ rest)[0]? =
                (sealAll (other :: more) ++ body)[0]? := by
              rw [hrest]
            rw [List.getElem?_append_left, List.getElem?_append_left] at hleft
            · exact eq_of_getElem_sealAll hpos hleft
            · rw [sealAll_cons, List.length_append, length_seal]
              omega
            · rw [sealAll_cons, List.length_append, length_seal]
              omega
          subst hsame
          rw [sealAll_cons, sealAll_cons, List.append_assoc, List.prefix_append_right_inj] at h
          obtain h | h := ih h
          · exact .inl ((List.prefix_cons_inj frame).mpr h)
          · exact .inr ((List.prefix_cons_inj frame).mpr h)

theorem front_of_sealAll (h : sealAll frames <+: sealAll more) : frames <+: more := by
  have hclosed : sealAll frames <+: sealAll more ++ [] := by
    rwa [List.append_nil]
  obtain hfront | hfront := compare_of_sealAll hclosed
  · exact hfront
  · obtain ⟨rest, rfl⟩ := hfront
    rw [sealAll_append] at h
    have hlen := h.length_le
    rw [List.length_append] at hlen
    have hnil : sealAll rest = [] := List.length_eq_zero_iff.mp (by omega)
    cases rest with
    | nil => rw [List.append_nil]
    | cons frame rest =>
        rw [sealAll_cons, List.append_eq_nil_iff] at hnil
        exact absurd hnil.1 (seal_ne_nil frame)

theorem front_of_changed {i : ℕ} {byte : StoredByte} (hi : i < (sealAll more).length)
    (hne : (sealAll more)[i] ≠ byte) (h : sealAll frames <+: (sealAll more).set i byte) :
    frames <+: more := by
  have htwo : 1 < tagSize := by decide
  induction frames generalizing more i with
  | nil => exact List.nil_prefix
  | cons frame frames ih =>
      cases more with
      | nil => exact absurd hi (Nat.not_lt_zero _)
      | cons other more =>
          have hlong : tagSize ≤ (sealAll (frame :: frames)).length := by
            rw [sealAll_cons, List.length_append, length_seal]
            omega
          have hkept : ∀ k, k < tagSize → i ≠ k →
              (sealAll (frame :: frames))[k]? = (sealAll (other :: more))[k]? := by
            intro k hk hik
            have hlt : k < (sealAll (frame :: frames)).length := by omega
            have hget := List.prefix_iff_getElem?.mp h k hlt
            rw [List.getElem?_set_ne hik] at hget
            rw [hget, List.getElem?_eq_getElem hlt]
          have hsame : frame = other := by
            by_cases hzero : i = 0
            · exact eq_of_getElem_sealAll htwo (hkept 1 htwo (by omega))
            · exact eq_of_getElem_sealAll tagSize_pos (hkept 0 tagSize_pos hzero)
          subst hsame
          rw [List.prefix_cons_inj]
          simp only [sealAll_cons] at hi hne h
          by_cases hfirst : i < frame.seal.length
          · rw [List.set_append_left _ _ hfirst] at h
            have hfront := List.prefix_of_prefix_length_le ((List.prefix_append _ _).trans h)
              (List.prefix_append _ _) (by rw [List.length_set])
            have hequal := hfront.eq_of_length (List.length_set ..).symm
            rw [List.getElem_append_left hfirst] at hne
            exact absurd (by rw [List.getElem_of_eq hequal, List.getElem_set_self]) hne
          · rw [List.set_append_right _ _ (by omega), List.prefix_append_right_inj] at h
            rw [List.getElem_append_right (by omega)] at hne
            rw [List.length_append] at hi
            exact ih (by omega) hne h

theorem map_position_chunkFrames (nonce : List UInt8) (aad : String) (position : ℕ)
    (bytes : List UInt8) : (chunkFrames nonce aad position bytes).map Frame.position =
      List.range' position (chunkFrames nonce aad position bytes).length := by
  fun_induction chunkFrames nonce aad position bytes with
  | case1 position bytes hshort => rfl
  | case2 position bytes hlong ih => rw [List.map_cons, List.length_cons, List.range'_succ, ih]

theorem plaintext_chunkFrames (nonce : List UInt8) (aad : String) (position : ℕ)
    (bytes : List UInt8) :
    (chunkFrames nonce aad position bytes).flatMap Frame.plaintext = bytes := by
  fun_induction chunkFrames nonce aad position bytes with
  | case1 position bytes hshort => exact List.append_nil _
  | case2 position bytes hlong ih => rw [List.flatMap_cons, ih, List.take_append_drop]

theorem position_of_placed (hplaced : frames.map Frame.position = List.range' 0 frames.length)
    {i : ℕ} (hi : i < frames.length) : frames[i].position = i := by
  have hmap : (frames.map Frame.position)[i]? = (List.range' 0 frames.length)[i]? := by
    rw [hplaced]
  rw [List.getElem?_map, List.getElem?_eq_getElem hi, List.getElem?_range' hi] at hmap
  simpa using hmap

theorem front_of_placed (hplaced : frames.map Frame.position = List.range' 0 frames.length)
    (hmore : more.map Frame.position = List.range' 0 more.length)
    (h : ∀ frame ∈ frames, frame ∈ more) : frames <+: more := by
  have hindex : ∀ i (hi : i < frames.length), ∃ hi' : i < more.length, frames[i] = more[i] := by
    intro i hi
    obtain ⟨k, hk, heq⟩ := List.getElem_of_mem (h frames[i] (List.getElem_mem hi))
    have hplace := position_of_placed hmore hk
    rw [heq, position_of_placed hplaced hi] at hplace
    subst hplace
    exact ⟨hk, heq.symm⟩
  have hlen : frames.length ≤ more.length := by
    by_contra hlong
    obtain ⟨hlt, _⟩ := hindex more.length (by omega)
    omega
  rw [List.prefix_iff_getElem]
  exact ⟨hlen, fun i hi => (hindex i hi).2⟩

theorem Streams.last_iff (h : Streams frames) {i : ℕ} (hi : i < frames.length) :
    frames[i].last = true ↔ i + 1 = frames.length := by
  induction frames generalizing i with
  | nil => exact absurd hi (Nat.not_lt_zero _)
  | cons frame frames ih =>
      by_cases hne : frames = []
      · subst hne
        have hzero : i = 0 := Nat.lt_one_iff.mp hi
        subst hzero
        exact iff_of_true h rfl
      · obtain ⟨hopen, _, hrest⟩ := h.tail hne
        have hpos := List.length_pos_iff.mpr hne
        rw [List.length_cons]
        cases i with
        | zero =>
            apply iff_of_false
            · rw [List.getElem_cons_zero, hopen]
              exact Bool.false_ne_true
            · omega
        | succ i =>
            rw [List.getElem_cons_succ, ih hrest (Nat.lt_of_succ_lt_succ hi)]
            omega

theorem Streams.eq_of_front (h : Streams more) (hfront : frames ++ [frame] <+: more)
    (hlast : frame.last = true) : frames ++ [frame] = more := by
  obtain ⟨hlen, hget⟩ := List.prefix_iff_getElem.mp hfront
  rw [List.length_append, List.length_singleton] at hlen
  have hframe := hget frames.length (by rw [List.length_append, List.length_singleton]; omega)
  rw [List.getElem_concat_length rfl] at hframe
  have hend := (h.last_iff hlen).mp (hframe ▸ hlast)
  apply hfront.eq_of_length
  rw [List.length_append, List.length_singleton, hend]

theorem Forged.ne (h : Forged more body) : body ≠ sealAll more := by
  cases h with
  | cut hfront hne => exact hne
  | extended hne => exact fun heq => hne (List.append_right_eq_self.mp heq)
  | @reordered others hperm hne =>
      intro heq
      have hall : sealAll others <+: sealAll more := by rw [heq]
      exact hne ((front_of_sealAll hall).eq_of_length hperm.length_eq)
  | changed hi hne =>
      intro heq
      exact hne (by rw [List.getElem_of_eq heq.symm, List.getElem_set_self])

theorem Forged.front (h : Forged more body) (hstreams : Streams more) (hne : more ≠ [])
    (hmore : more.map Frame.position = List.range' 0 more.length)
    (hplaced : frames.map Frame.position = List.range' 0 frames.length)
    (hopened : ∀ frame ∈ frames.dropLast, frame.last = false) (hfront : sealAll frames <+: body) :
    frames <+: more := by
  cases h with
  | cut hcut _ => exact front_of_sealAll (hfront.trans hcut)
  | extended _ =>
      obtain hfront | hall := compare_of_sealAll hfront
      · exact hfront
      · by_cases hlonger : more.length < frames.length
        · have hpos := List.length_pos_iff.mpr hne
          obtain ⟨_, hget⟩ := List.prefix_iff_getElem.mp hall
          have hend := (hstreams.last_iff (Nat.sub_one_lt_of_lt hpos)).mpr (by omega)
          have hmem : more[more.length - 1] ∈ frames.dropLast := by
            rw [hget _ (Nat.sub_one_lt_of_lt hpos), List.mem_iff_getElem]
            exact ⟨more.length - 1, by rw [List.length_dropLast]; omega, List.getElem_dropLast _⟩
          rw [hopened _ hmem] at hend
          cases hend
        · rw [hall.eq_of_length (Nat.le_antisymm hall.length_le (by omega))]
  | reordered hperm _ =>
      have hothers := front_of_sealAll hfront
      exact front_of_placed hplaced hmore fun frame hframe =>
        hperm.mem_iff.mp (hothers.subset hframe)
  | changed hi hchanged => exact front_of_changed hi hchanged hfront

end Decoding

/-- Whatever the sizes of the parts, they are the body that `encrypt_bytes` makes. However it
arrives it opens to the plaintext; made anything else of, it does not, and nothing but the plaintext
has been given out by then. -/
theorem stream_framing (nonce : List UInt8) (aad : String) (plaintext : List UInt8)
    (hcount : frameCount plaintext.length ≤ counterMax + 1) :
    ∃ frames : List Frame,
      encryptBytes nonce aad plaintext = some (nonce.map .plain ++ sealAll frames) ∧
      (sealAll frames).length = ciphertextLen plaintext.length - nonceSize ∧
      (∀ sizes : List ℕ, ∃ parts next,
        (StreamingEncryptor.new nonce aad).encryptSized (fun _ => plaintext) sizes =
          some (parts, next) ∧
        parts.flatMap EncryptedPart.ciphertext <+: sealAll frames ∧
        (next.finished = true ∨ frames.length ≤ sizes.length →
          parts.flatMap EncryptedPart.ciphertext = sealAll frames)) ∧
      (∀ pieces : List (List StoredByte), pieces.flatten = sealAll frames →
        ∃ rest, ((StreamingDecryptor.new nonce aad).receive pieces).2 = some rest ∧
          ((StreamingDecryptor.new nonce aad).receive pieces).1 ++ rest = plaintext) ∧
      ∀ pieces : List (List StoredByte), Forged frames pieces.flatten →
        ((StreamingDecryptor.new nonce aad).receive pieces).2 = none ∧
          ((StreamingDecryptor.new nonce aad).receive pieces).1 <+: plaintext := by
  have hcounted : Counted (chunkFrames nonce aad 0 plaintext) := counted_chunkFrames hcount
  have hopens := decryptBody_chunkFrames hcounted (Nat.lt_succ_self _)
  have hstreams : Streams (chunkFrames nonce aad 0 plaintext) := streams_chunkFrames
  have hne : chunkFrames nonce aad 0 plaintext ≠ [] := chunkFrames_ne_nil
  have hplaced := map_position_chunkFrames nonce aad 0 plaintext
  have hplain := plaintext_chunkFrames nonce aad 0 plaintext
  refine ⟨chunkFrames nonce aad 0 plaintext, ?_, ?_, fun sizes => ?_, fun pieces hbody => ?_,
    fun pieces hforged => ?_⟩
  · rw [encryptBytes_eq, if_pos hcount]
  · have hlen := length_sealAll_chunkFrames nonce aad 0 plaintext
    omega
  · have hall : (StreamingEncryptor.new nonce aad).remaining plaintext =
        chunkFrames nonce aad 0 plaintext := rfl
    rw [← hall] at hcounted
    obtain ⟨parts, next, hparts, hbytes, hend⟩ := encryptSized_still sizes hcounted
    rw [hall] at hbytes hend
    refine ⟨parts, next, hparts, ⟨_, hbytes⟩, fun hdone => ?_⟩
    have hnil : next.remaining plaintext = [] := hdone.elim remaining_finished hend
    rw [← hbytes, hnil]
    exact (List.append_nil _).symm
  · have hreceived := StreamingDecryptor.receive_flatten (d := .new nonce aad) pieces
      (Nat.zero_le _)
    rw [StreamingDecryptor.decryptBody_eq (Nat.lt_succ_self _), ← hbody] at hopens
    obtain ⟨rest, hrest, hwhole⟩ := Option.map_eq_some_iff.mp (hreceived.trans hopens)
    exact ⟨rest, hrest, hwhole⟩
  · obtain ⟨frames, hframes, hopened, hout, hfront, hend⟩ :=
      StreamingDecryptor.receive_opens (d := .new nonce aad) pieces
    have hfirst := hforged.front hstreams hne hplaced hframes
      (fun frame hframe => hopened frame (List.dropLast_subset _ hframe)) hfront
    refine ⟨?_, ?_⟩
    · rw [Option.eq_none_iff_forall_ne_some]
      intro rest hrest
      obtain ⟨frame, hposition, hlast, _, hbody⟩ := hend rest hrest
      change pieces.flatten = _ at hbody
      have hplacedAll : (frames ++ [frame]).map Frame.position =
          List.range' 0 (frames ++ [frame]).length := by
        rw [List.map_append, hframes, List.length_append, List.length_singleton,
          List.range'_concat, List.map_singleton, hposition, Nat.one_mul]
        rfl
      have hopenedAll : ∀ f ∈ (frames ++ [frame]).dropLast, f.last = false := by
        rw [List.dropLast_concat]
        exact hopened
      have hfrontAll := hforged.front hstreams hne hplaced hplacedAll hopenedAll
        (hbody ▸ List.prefix_rfl)
      rw [hstreams.eq_of_front hfrontAll hlast] at hbody
      exact hforged.ne hbody
    · obtain ⟨others, hothers⟩ := hfirst
      rw [hout, ← hplain, ← hothers, List.flatMap_append]
      exact List.prefix_append _ _

/-- Four frames, which are read in two pieces. -/
theorem stream_framing_several : ∃ (plaintext : List UInt8) (frames : List Frame),
    plaintext.length = 200000 ∧
      encryptBytes (List.replicate nonceSize 0) "a" plaintext =
        some ((List.replicate nonceSize 0).map .plain ++ sealAll frames) ∧
      (sealAll frames).length = 200000 + 4 * tagSize ∧
      ∀ n, ∃ rest, ((StreamingDecryptor.new (List.replicate nonceSize 0) "a").receive
          [(sealAll frames).take n, (sealAll frames).drop n]).2 = some rest ∧
        ((StreamingDecryptor.new (List.replicate nonceSize 0) "a").receive
          [(sealAll frames).take n, (sealAll frames).drop n]).1 ++ rest = plaintext := by
  have hlength : (List.replicate 200000 (7 : UInt8)).length = 200000 := List.length_replicate
  obtain ⟨frames, hbytes, hlen, _, hreads, _⟩ := stream_framing (List.replicate nonceSize 0) "a"
    (List.replicate 200000 7) (by rw [hlength]; decide)
  refine ⟨List.replicate 200000 7, frames, hlength, hbytes, ?_, fun n => hreads _ ?_⟩
  · rw [hlen, hlength]
    decide
  · rw [List.flatten_cons, List.flatten_singleton, List.take_append_drop]

/-- A plaintext of more frames than STREAM counts is refused. -/
theorem encryptBytes_too_long :
    encryptBytes [] "" (List.replicate (2 ^ 48 + 1) 0) = none := by
  rw [encryptBytes_eq, if_neg]
  rw [List.length_replicate]
  decide

end FileMirror
