import FileMirror.PackFormat

set_option autoImplicit false

namespace FileMirror

open PackFormat (Nonce encryptBytes_opens zeroNonce)

/-- The loop of `encrypt` over the rest of a file that stays as it is; an error leaves what has been
written. -/
def encryptLoop (nonce : List UInt8) (aad : String) (position : ℕ) (input : List UInt8)
    (written : List StoredByte) : Except (List StoredByte) (List StoredByte) :=
  let chunk := input.take chunkSize
  let ahead := input.drop chunkSize
  if input.length = 0 then .ok written
  else if ahead = [] then .ok (written ++ Frame.seal ⟨nonce, aad, position, true, chunk⟩)
  else if counterMax ≤ position then .error written
  else encryptLoop nonce aad (position + 1) ahead
    (written ++ Frame.seal ⟨nonce, aad, position, false, chunk⟩)
termination_by input.length
decreasing_by
  have hpos := chunkSize_pos
  rw [List.length_drop]
  omega

/-- `encrypt`, with the nonce that it draws. -/
def encrypt (nonce : List UInt8) (aad : String) (input : List UInt8) :
    Except (List StoredByte) (List StoredByte) :=
  encryptLoop nonce aad 0 input (nonce.map .plain)

def decryptLoop (nonce : List UInt8) (aad : String) (position : ℕ) (input : List StoredByte)
    (written : List UInt8) : Except (List UInt8) (List UInt8) :=
  let frame := input.take frameSize
  let ahead := input.drop frameSize
  if input.length = 0 then .ok written
  else if ahead = [] then
    match openFrame nonce aad position true frame with
    | none => .error written
    | some chunk => .ok (written ++ chunk)
  else if counterMax ≤ position then .error written
  else
    match openFrame nonce aad position false frame with
    | none => .error written
    | some chunk => decryptLoop nonce aad (position + 1) ahead (written ++ chunk)
termination_by input.length
decreasing_by
  have hpos := frameSize_pos
  rw [List.length_drop]
  omega

/-- `read_exact` of the nonce, and the loop. -/
def decrypt (aad : String) (input : List StoredByte) : Except (List UInt8) (List UInt8) :=
  if input.length < nonceSize then .error []
  else
    match plainBytes (input.take nonceSize) with
    | none => .error []
    | some nonce => decryptLoop nonce aad 0 (input.drop nonceSize) []

def Refused (aad : String) (input : List StoredByte) : Prop :=
  (∃ written, decrypt aad input = .error written) ∧ decryptBytes input aad = none

/-- The file and the bytes that are made of a plaintext, whole and cut after `n` bytes. -/
structure CodecAgrees (nonce nonce' : Nonce) (aad : String) (plaintext : List UInt8) (n : ℕ) :
    Prop where
  whole : ∀ file, encrypt nonce.bytes aad plaintext = .ok file →
    decrypt aad file = .ok plaintext ∧ decryptBytes file aad = some plaintext ∧
      file.length = ciphertextLen plaintext.length
  cutFile : ∀ file, encrypt nonce.bytes aad plaintext = .ok file → n < file.length →
    Refused aad (file.take n)
  cutBytes : ∀ bytes, encryptBytes nonce'.bytes aad plaintext = some bytes → n < bytes.length →
    Refused aad (bytes.take n)

section Encrypting

variable {nonce : List UInt8} {aad : String} {position : ℕ} {input : List UInt8}
  {written : List StoredByte}

theorem encryptLoop_eq (hne : input ≠ []) (hposition : position ≤ counterMax) :
    (encryptLoop nonce aad position input written).toOption =
      if position + frameCount input.length ≤ counterMax + 1
      then some (written ++ sealAll (chunkFrames nonce aad position input)) else none := by
  fun_induction encryptLoop nonce aad position input written with
  | case1 position input written hempty =>
      exact absurd (List.length_eq_zero_iff.mp hempty) hne
  | case2 position input written chunk ahead hempty hlast =>
      have hshort : input.length ≤ chunkSize := List.drop_eq_nil_iff.mp hlast
      rw [chunkFrames_short hshort, frameCount_short hshort, if_pos (by omega)]
      dsimp only [chunk]
      rw [List.take_of_length_le hshort, sealAll_cons]
      exact congrArg some (congrArg _ (List.append_nil _).symm)
  | case3 position input written ahead hempty hmore hcounter =>
      have hlong : chunkSize < input.length := by
        rw [← not_le]
        exact fun h => hmore (List.drop_eq_nil_of_le h)
      have hcount := frameCount_long hlong
      have hrest : 1 ≤ frameCount (input.length - chunkSize) := Nat.le_max_right _ _
      rw [if_neg (by omega)]
      rfl
  | case4 position input written chunk ahead hempty hmore hcounter ih =>
      have hlong : chunkSize < input.length := by
        rw [← not_le]
        exact fun h => hmore (List.drop_eq_nil_of_le h)
      have hcount := frameCount_long hlong
      have hstep := ih hmore (by omega)
      dsimp only [ahead, chunk] at hstep ⊢
      rw [hstep, List.length_drop, chunkFrames_long hlong, sealAll_cons, hcount,
        List.append_assoc, Nat.add_assoc, Nat.add_comm 1]

theorem encrypt_nil (nonce : List UInt8) (aad : String) :
    encrypt nonce aad [] = .ok (nonce.map .plain) := by
  rw [encrypt, encryptLoop]
  rfl

theorem encrypt_eq (hne : input ≠ []) :
    (encrypt nonce aad input).toOption = encryptBytes nonce aad input := by
  rw [encrypt, encryptLoop_eq hne (Nat.zero_le _), encryptBytes_eq, Nat.zero_add]

end Encrypting

section Decrypting

variable {nonce : List UInt8} {aad : String} {position fuel n : ℕ} {input body : List StoredByte}
  {written bytes plaintext : List UInt8}

theorem decryptLoop_eq (hne : input ≠ []) (hfuel : input.length < fuel) :
    (decryptLoop nonce aad position input written).toOption =
      (decryptBody nonce aad fuel position input).map (written ++ ·) := by
  induction fuel generalizing position input written with
  | zero => omega
  | succ fuel ih =>
      have hpos := frameSize_pos
      have hlength : input.length ≠ 0 := fun h => hne (List.length_eq_zero_iff.mp h)
      rw [decryptLoop, decryptBody, if_neg hlength]
      change _ = Option.map _ (if frameSize < input.length then _ else _)
      by_cases hlong : frameSize < input.length
      · have hahead : input.drop frameSize ≠ [] := by
          rw [Ne, List.drop_eq_nil_iff]
          omega
        rw [if_neg hahead, if_pos hlong]
        by_cases hcounter : counterMax ≤ position
        · rw [if_pos hcounter, if_pos hcounter]
          rfl
        · rw [if_neg hcounter, if_neg hcounter]
          change _ = Option.map _ ((openFrame nonce aad position false (input.take frameSize)).bind _)
          cases openFrame nonce aad position false (input.take frameSize) with
          | none => rfl
          | some chunk =>
              have hshorter : (input.drop frameSize).length < fuel := by
                rw [List.length_drop]
                omega
              dsimp only
              rw [ih hahead hshorter, Option.bind_some, Option.map_map]
              simp only [Function.comp_def, List.append_assoc]
              rfl
      · have hshort : input.length ≤ frameSize := by omega
        rw [if_pos (List.drop_eq_nil_of_le hshort), if_neg hlong,
          List.take_of_length_le hshort]
        cases openFrame nonce aad position true input with
        | none => rfl
        | some chunk => rfl

theorem decryptBody_front (hfront : body <+: sealAll (chunkFrames nonce aad position plaintext))
    (h : decryptBody nonce aad fuel position body = some bytes) :
    body = sealAll (chunkFrames nonce aad position plaintext) := by
  induction fuel generalizing position body plaintext bytes with
  | zero => cases h
  | succ fuel ih =>
      rw [decryptBody] at h
      by_cases hshort : plaintext.length ≤ chunkSize
      · rw [chunkFrames_short hshort] at hfront ⊢
        have hlength := hfront.length_le
        rw [sealAll_cons, List.length_append, length_seal] at hlength
        have hnil : (sealAll []).length = 0 := rfl
        rw [if_neg (by dsimp only at hlength; omega)] at h
        have hopened := openFrame_eq_some h
        have hsealed : body = sealAll [⟨nonce, aad, position, true, bytes⟩] := by
          rw [hopened, sealAll_cons]
          exact (List.append_nil _).symm
        rw [hsealed] at hfront ⊢
        have hsame := (front_of_sealAll hfront).eq_of_length rfl
        rw [hsame]
      · have hlong : chunkSize < plaintext.length := by omega
        rw [chunkFrames_long hlong, sealAll_cons] at hfront ⊢
        have hfirst : (Frame.seal ⟨nonce, aad, position, false, plaintext.take chunkSize⟩).length =
            chunkSize + tagSize := by
          rw [length_seal, List.length_take]
          omega
        split_ifs at h with hmore hcounter
        · obtain ⟨chunk, -, hrest⟩ := Option.bind_eq_some_iff.mp h
          obtain ⟨rest, hrest, -⟩ := Option.map_eq_some_iff.mp hrest
          have hhead : body.take (chunkSize + tagSize) =
              Frame.seal ⟨nonce, aad, position, false, plaintext.take chunkSize⟩ := by
            have htake := hfront.take (chunkSize + tagSize)
            rw [List.take_left' hfirst] at htake
            refine htake.eq_of_length ?_
            rw [List.length_take, hfirst]
            omega
          have htail : body.drop (chunkSize + tagSize) <+:
              sealAll (chunkFrames nonce aad (position + 1) (plaintext.drop chunkSize)) := by
            have hdrop := hfront.drop (chunkSize + tagSize)
            rwa [List.drop_left' hfirst] at hdrop
          rw [← ih htail hrest, ← hhead, List.take_append_drop]
        · have hopened := openFrame_eq_some h
          have hsealed : body = sealAll [⟨nonce, aad, position, true, bytes⟩] := by
            rw [hopened, sealAll_cons]
            exact (List.append_nil _).symm
          rw [hsealed, ← sealAll_cons] at hfront
          obtain ⟨hsame, -⟩ := List.cons_prefix_cons.mp (front_of_sealAll hfront)
          cases hsame

theorem decrypt_framed (hnonce : nonce.length = nonceSize) :
    decrypt aad (nonce.map .plain ++ body) = decryptLoop nonce aad 0 body [] := by
  have hbegins : (nonce.map StoredByte.plain).length = nonceSize := by
    rw [List.length_map, hnonce]
  rw [decrypt, if_neg (by rw [List.length_append]; omega), List.take_left' hbegins,
    List.drop_left' hbegins, plainBytes_plain]

theorem decrypt_nonce (hnonce : nonce.length = nonceSize) :
    decrypt aad (nonce.map .plain) = .ok [] := by
  have hframed : decrypt aad (nonce.map .plain ++ []) = decryptLoop nonce aad 0 [] [] :=
    decrypt_framed hnonce
  rw [List.append_nil] at hframed
  rw [hframed, decryptLoop]
  rfl

theorem decrypt_of_body (hnonce : nonce.length = nonceSize) (hne : body ≠ []) :
    (decrypt aad (nonce.map .plain ++ body)).toOption =
      decryptBytes (nonce.map .plain ++ body) aad := by
  rw [decrypt_framed hnonce, decryptBytes_framed hnonce, decryptLoop_eq hne (Nat.lt_succ_self _)]
  exact Option.map_id' ..

theorem error_of_toOption {x : Except (List UInt8) (List UInt8)} (h : x.toOption = none) :
    ∃ written, x = .error written := by
  cases x with
  | error written => exact ⟨written, rfl⟩
  | ok written => cases h

theorem refused_short (h : input.length < nonceSize) : Refused aad input :=
  ⟨⟨[], if_pos h⟩, if_pos h⟩

theorem refused_cut (hnonce : nonce.length = nonceSize) (hn : n ≠ nonceSize)
    (hcut : n < (nonce.map StoredByte.plain ++ sealAll (chunkFrames nonce aad 0 plaintext)).length) :
    Refused aad ((nonce.map StoredByte.plain ++ sealAll (chunkFrames nonce aad 0 plaintext)).take n) := by
  have hbegins : (nonce.map StoredByte.plain).length = nonceSize := by
    rw [List.length_map, hnonce]
  by_cases hshort : n < nonceSize
  · refine refused_short ?_
    rw [List.length_take]
    omega
  · generalize hbody : (sealAll (chunkFrames nonce aad 0 plaintext)).take (n - nonceSize) = body
    have htake : (nonce.map StoredByte.plain ++ sealAll (chunkFrames nonce aad 0 plaintext)).take n =
        nonce.map .plain ++ body := by
      rw [List.take_append, hbegins, hbody, List.take_of_length_le (by omega)]
    have hlength : body.length = n - nonceSize := by
      rw [← hbody, List.length_take]
      rw [List.length_append] at hcut
      omega
    have hne : body ≠ [] := by
      rintro rfl
      rw [List.length_nil] at hlength
      omega
    have hnone : decryptBytes (nonce.map .plain ++ body) aad = none := by
      rw [decryptBytes_framed hnonce, Option.eq_none_iff_forall_ne_some]
      intro bytes hopened
      have hall := decryptBody_front (hbody ▸ List.take_prefix _ _) hopened
      rw [List.length_append, ← hall] at hcut
      omega
    rw [htake]
    exact ⟨error_of_toOption (by rw [decrypt_of_body hnonce hne, hnone]), hnone⟩

end Decrypting

section Codec

variable {nonce nonce' : Nonce} {aad : String} {plaintext : List UInt8} {file : List StoredByte}
  {n : ℕ}

theorem encryptBytes_eq_some (h : encryptBytes nonce.bytes aad plaintext = some file) :
    frameCount plaintext.length ≤ counterMax + 1 ∧
      file = nonce.bytes.map .plain ++ sealAll (chunkFrames nonce.bytes aad 0 plaintext) := by
  rw [encryptBytes_eq] at h
  split_ifs at h with hcount
  exact ⟨hcount, (Option.some_inj.mp h).symm⟩

theorem encryptBytes_of_encrypt (hne : plaintext ≠ [])
    (h : encrypt nonce.bytes aad plaintext = .ok file) :
    encryptBytes nonce.bytes aad plaintext = some file := by
  rw [← encrypt_eq hne, h]
  rfl

theorem refused_bytes (hn : n ≠ nonceSize)
    (h : encryptBytes nonce.bytes aad plaintext = some file) (hcut : n < file.length) :
    Refused aad (file.take n) := by
  obtain ⟨-, rfl⟩ := encryptBytes_eq_some h
  exact refused_cut nonce.length_bytes hn hcut

theorem whole_opens (hne : plaintext ≠ []) (h : encrypt nonce.bytes aad plaintext = .ok file) :
    decrypt aad file = .ok plaintext ∧ decryptBytes file aad = some plaintext ∧
      file.length = ciphertextLen plaintext.length := by
  have hbytes := encryptBytes_of_encrypt hne h
  obtain ⟨hopens, hlength⟩ := encryptBytes_opens nonce.length_bytes hbytes
  obtain ⟨-, rfl⟩ := encryptBytes_eq_some hbytes
  have hbody : sealAll (chunkFrames nonce.bytes aad 0 plaintext) ≠ [] := by
    have htag := tagSize_le_chunkFrames nonce.bytes aad 0 plaintext
    have hpos := tagSize_pos
    exact List.ne_nil_of_length_pos (by omega)
  have hdecrypt := (decrypt_of_body nonce.length_bytes hbody).trans hopens
  refine ⟨?_, hopens, hlength⟩
  generalize decrypt aad _ = result at hdecrypt
  cases result with
  | error written => cases hdecrypt
  | ok written => exact congrArg Except.ok (Option.some_inj.mp hdecrypt)

theorem not_refused_nonce (nonce : Nonce) (aad : String)
    (hcount : frameCount plaintext.length ≤ counterMax + 1) :
    ∃ bytes, encryptBytes nonce.bytes aad plaintext = some bytes ∧ nonceSize < bytes.length ∧
      ¬ Refused aad (bytes.take nonceSize) := by
  have hbegins : (nonce.bytes.map StoredByte.plain).length = nonceSize := by
    rw [List.length_map, nonce.length_bytes]
  have htag := tagSize_le_chunkFrames nonce.bytes aad 0 plaintext
  have hpos := tagSize_pos
  refine ⟨_, (encryptBytes_eq ..).trans (if_pos hcount), ?_, ?_⟩
  · rw [List.length_append, hbegins]
    omega
  · rw [List.take_left' hbegins]
    rintro ⟨⟨written, hwritten⟩, -⟩
    rw [decrypt_nonce nonce.length_bytes] at hwritten
    cases hwritten

theorem not_opened_empty : ¬ ∀ file, encrypt nonce.bytes aad [] = .ok file →
    decrypt aad file = .ok [] ∧ decryptBytes file aad = some [] ∧
      file.length = ciphertextLen ([] : List UInt8).length := by
  intro h
  obtain ⟨-, -, hlength⟩ := h _ (encrypt_nil ..)
  rw [List.length_map, nonce.length_bytes] at hlength
  exact absurd hlength (by decide)

/-- The whole-file codec agrees with the other where there is a plaintext, and a cut does not leave
the nonce only; or else where nothing is encrypted, as there are more frames than STREAM counts. -/
theorem whole_file_agrees_iff (nonce nonce' : Nonce) (aad : String) (plaintext : List UInt8)
    (n : ℕ) : CodecAgrees nonce nonce' aad plaintext n ↔
      counterMax + 1 < frameCount plaintext.length ∨ plaintext ≠ [] ∧ n ≠ nonceSize := by
  have hempty : frameCount ([] : List UInt8).length = 1 := frameCount_short (Nat.zero_le _)
  constructor
  · intro h
    rw [or_iff_not_imp_left, not_lt]
    intro hcount
    constructor
    · rintro rfl
      exact not_opened_empty h.whole
    · rintro rfl
      obtain ⟨bytes, hbytes, hlength, hopened⟩ := not_refused_nonce nonce' aad hcount
      exact hopened (h.cutBytes bytes hbytes hlength)
  · rintro (hlong | ⟨hne, hn⟩)
    · have hne : plaintext ≠ [] := by
        rintro rfl
        rw [hempty] at hlong
        exact absurd hlong (by decide)
      have hnone (nonce : Nonce) (file : List StoredByte) :
          encryptBytes nonce.bytes aad plaintext ≠ some file := by
        intro h
        exact absurd (encryptBytes_eq_some h).1 (not_le.mpr hlong)
      exact ⟨fun file h => absurd (encryptBytes_of_encrypt hne h) (hnone nonce file),
        fun file h => absurd (encryptBytes_of_encrypt hne h) (hnone nonce file),
        fun bytes h => absurd h (hnone nonce' bytes)⟩
    · exact ⟨fun file h => whole_opens hne h,
        fun file h => refused_bytes hn (encryptBytes_of_encrypt hne h),
        fun bytes h => refused_bytes hn h⟩

/-- An empty file has no frame, and a file that is cut to its nonce is not missed. -/
theorem whole_file_disagrees : ¬ CodecAgrees zeroNonce zeroNonce "aad" [] 0 ∧
    ¬ CodecAgrees zeroNonce zeroNonce "aad" [7] nonceSize := by
  refine ⟨fun h => not_opened_empty h.whole, fun h => ?_⟩
  have hshort : frameCount [(7 : UInt8)].length ≤ counterMax + 1 := by decide
  obtain ⟨bytes, hbytes, hlength, hopened⟩ := not_refused_nonce zeroNonce "aad" hshort
  exact hopened (h.cutBytes bytes hbytes hlength)

end Codec

end FileMirror
