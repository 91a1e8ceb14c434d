import FileMirror.PackFormat

set_option autoImplicit false

namespace FileMirror.PackFormat

/-- The writer stays as it is, or the blob is appended with its place and its length. -/
inductive Writer.PushesExactly (w : Writer) (blob : SealedBlob) : Prop
  | refused {error : Failure PackError} (h : (w.push blob).result = .error error)
  | known (h : (w.push blob).result = .ok (false, w))
  | appended {e : Entry} {w' : Writer} (h : (w.push blob).result = .ok (true, w'))
      (hbuf : w'.buf = w.buf ++ blob.sealedBytes) (hentries : w'.entries = w.entries ++ [e])
      (hoffset : e.offset = w.buf.length) (hlength : e.length = blob.sealedBytes.length)
      (hend : e.end ≤ 2 ^ 32 - 1)

section Pushes

variable {w : Writer} {blob : SealedBlob} {zstd : Zstd} {nonce : Nonce} {want used : Compression}
  {blobType : BlobType} {id : ObjectId} {plaintext stored : List UInt8}

theorem push_known (h : w.has blob.id = true) : (w.push blob).result = .ok (false, w) := by
  rw [Writer.push, if_pos h]
  rfl

theorem push_refused (h : w.has blob.id = false)
    (hfull : 2 ^ 32 ≤ w.buf.length + blob.sealedBytes.length % 2 ^ 32) :
    (w.push blob).result =
      .error (.error (.backup (.invalid "pack has grown beyond the addressable size"))) := by
  rw [Writer.push, if_neg (by rw [h]; exact Bool.false_ne_true), if_neg (by omega)]
  rfl

theorem pushesExactly_iff : w.PushesExactly blob ↔ w.has blob.id = true ∨
    blob.sealedBytes.length < 2 ^ 32 ∨
      2 ^ 32 ≤ w.buf.length + blob.sealedBytes.length % 2 ^ 32 := by
  cases hhas : w.has blob.id with
  | true => exact iff_of_true (.known (push_known hhas)) (.inl rfl)
  | false =>
      by_cases hroom : w.buf.length + blob.sealedBytes.length % 2 ^ 32 < 2 ^ 32
      · have hpushed := push_appended hhas hroom
        constructor
        · intro h
          cases h with
          | refused h =>
              rw [hpushed] at h
              cases h
          | known h =>
              rw [hpushed] at h
              cases h
          | appended h hbuf hentries hoffset hlength hend =>
              rw [hpushed] at h
              cases h
              obtain rfl := List.singleton_inj.mp (List.append_cancel_left hentries)
              dsimp only at hlength
              exact .inr (.inl (by omega))
        · intro h
          have hshort : blob.sealedBytes.length < 2 ^ 32 := by
            rcases h with h | h | h
            · cases h
            · exact h
            · omega
          refine .appended hpushed rfl rfl rfl ?_ ?_
          · exact Nat.mod_eq_of_lt hshort
          · unfold Entry.end
            dsimp only
            omega
      · refine iff_of_true ?_ (.inr (.inr (by omega)))
        exact .refused (push_refused hhas (by omega))

theorem length_sealed
    (hstored : (compress zstd plaintext want).result = .ok (stored, used))
    (h : (SealedBlob.seal zstd nonce want blobType id plaintext).result = .ok blob) :
    blob.sealedBytes.length = ciphertextLen stored.length := by
  obtain ⟨-, stored', used', bytes, hstored', hbytes, rfl⟩ := seal_eq_ok h
  rw [hstored] at hstored'
  cases hstored'
  exact (encryptBytes_opens nonce.length_bytes (Metered.orFail_eq_ok.mp hbytes)).2

/-- The longest stored bytes whose sealed length has 32 bits. -/
def maxStored : ℕ := 4293918940

theorem ciphertextLen_fits {n : ℕ} : ciphertextLen n < 2 ^ 32 ↔ n ≤ maxStored := by
  unfold ciphertextLen nonceSize tagSize chunkSize maxStored
  dsimp only
  omega

/-- `push` keeps the numbers right if and only if the blob is there already, its length has 32 bits,
or the length that is left of it does not fit; so every writer takes a sealed plaintext as it is if and
only if what is stored of it leaves room for the frames. -/
theorem push_keeps_lengths_iff (blob : SealedBlob) :
    (∀ w : Writer, w.PushesExactly blob ↔ w.has blob.id = true ∨
        blob.sealedBytes.length < 2 ^ 32 ∨
          2 ^ 32 ≤ w.buf.length + blob.sealedBytes.length % 2 ^ 32) ∧
      ∀ zstd nonce want blobType id plaintext stored used,
        (compress zstd plaintext want).result = .ok (stored, used) →
          (SealedBlob.seal zstd nonce want blobType id plaintext).result = .ok blob →
            ((∀ w : Writer, w.PushesExactly blob) ↔ stored.length ≤ maxStored) := by
  refine ⟨fun w => pushesExactly_iff, ?_⟩
  intro zstd nonce want blobType id plaintext stored used hstored hsealed
  rw [← ciphertextLen_fits, ← length_sealed hstored hsealed]
  constructor
  · intro h
    have hnew := pushesExactly_iff.mp (h (.new 0 .none))
    have hmod := Nat.mod_lt blob.sealedBytes.length (Nat.two_pow_pos 32)
    rcases hnew with hnew | hnew | hnew
    · cases hnew
    · exact hnew
    · have hempty : (Writer.new 0 .none).buf.length = 0 := rfl
      omega
  · intro h w
    exact pushesExactly_iff.mpr (.inr (.inl h))

/-- A blob that comes after another. -/
theorem push_keeps_lengths_after : ∃ w,
    (runAll asIs [.add zeroNonce .tree 7 [1, 2]] (.new 1 .none)).result = .ok w ∧
      w.has 8 = false ∧ w.PushesExactly (.whole zeroNonce .data 8 [3]) := by
  have hadded := @add_whole (.new 1 .none) asIs zeroNonce .tree 7 [1, 2] rfl rfl (by decide)
  refine ⟨_, Metered.bind_eq_ok.mpr ⟨_, hadded, rfl⟩, rfl, ?_⟩
  exact ((push_keeps_lengths_iff (.whole zeroNonce .data 8 [3])).2 asIs zeroNonce .none .data 8 [3]
    [3] .none rfl (seal_whole (by decide))).mpr (by decide) _

/-- The longest plaintext that is sealed does not keep its length. -/
theorem push_truncates :
    (SealedBlob.seal asIs zeroNonce .none .data 0 (List.replicate (2 ^ 32 - 1) 0)).result =
        .ok (.whole zeroNonce .data 0 (List.replicate (2 ^ 32 - 1) 0)) ∧
      ¬ (Writer.new 0 .none).PushesExactly
        (.whole zeroNonce .data 0 (List.replicate (2 ^ 32 - 1) 0)) := by
  have hlong (plaintext : List UInt8) (hplain : plaintext.length = 2 ^ 32 - 1) :
      (SealedBlob.seal asIs zeroNonce .none .data 0 plaintext).result =
          .ok (.whole zeroNonce .data 0 plaintext) ∧
        ¬ (Writer.new 0 .none).PushesExactly (.whole zeroNonce .data 0 plaintext) := by
    have hsealed : (SealedBlob.seal asIs zeroNonce .none .data 0 plaintext).result =
        .ok (.whole zeroNonce .data 0 plaintext) := seal_whole (by omega)
    have hstored : (compress asIs plaintext .none).result = .ok (plaintext, .none) := by
      rw [compress, if_pos (.inl rfl)]
      rfl
    refine ⟨hsealed, fun h => ?_⟩
    have hlength := length_sealed hstored hsealed
    rw [hplain] at hlength
    have hvalue : ciphertextLen (2 ^ 32 - 1) = 2 ^ 32 + 1048594 := by decide
    have hempty : (Writer.new 0 .none).buf.length = 0 := rfl
    rcases pushesExactly_iff.mp h with h | h | h
    · cases h
    · omega
    · omega
  exact hlong _ List.length_replicate

end Pushes

end FileMirror.PackFormat
