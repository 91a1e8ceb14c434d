import FileMirror.Apply
import FileMirror.Framing
import FileMirror.IndexFormat
import FileMirror.Prune

set_option autoImplicit false

/-!
# The format of packs

`pack.rs`, byte for byte: sealed blobs, one after another, then the sealed list of their entries and
a footer. Sealing is that of the content encryption; zstd, the keyed hash and the values of sealed
bytes are parameters.
-/

namespace FileMirror.PackFormat

inductive PackError where
  | backup (error : BackupError)
  | decryption (what : String)
  | corrupt (what : String)

abbrev Reading (α : Type) := Metered PackError α

def format {α : Type} (what : String) : Reading α := .fail (.backup (.format what))

inductive KeyKind where
  | data
  | «meta»
  deriving DecidableEq

/-- `blobId` is the keyed hash, `cipher` the value of a sealed byte. -/
structure Keys where
  blobId : List UInt8 → ObjectId
  cipher : Frame → ℕ → UInt8

structure Zstd where
  compress : List UInt8 → Except String (List UInt8)
  decompress : List UInt8 → ℕ → Except String (List UInt8)

structure Nonce where
  bytes : List UInt8
  length_bytes : bytes.length = nonceSize

def keyKind : BlobType → KeyKind
  | .data => .data
  | .tree => .meta

def KeyKind.context : KeyKind → String → String
  | .data, aad => "data key " ++ aad
  | .meta, aad => "meta key " ++ aad

def Keys.read (keys : Keys) : StoredByte → UInt8
  | .plain byte => byte
  | .sealed frame i => keys.cipher frame i

def sealBytes (kind : KeyKind) (nonce : Nonce) (plaintext : List UInt8) (aad : String) :
    Reading (List StoredByte) :=
  .orFail (encryptBytes nonce.bytes (kind.context aad) plaintext)
    (.backup (.mirror "crypto error: aead::Error"))

def openBytes (kind : KeyKind) (sealedBytes : List StoredByte) (aad what : String) :
    Reading (List UInt8) :=
  .orFail (decryptBytes sealedBytes (kind.context aad)) (.decryption what)

def blobAad (blobType : BlobType) (id : ObjectId) : String :=
  "rfm-backup:v1:blob:" ++ blobType.asStr ++ ":" ++ hashText id

def headerAad (packId : ObjectId) : String := "rfm-backup:v1:pack-header:" ++ hashText packId

/-- Lengths of 32 bits are exact as floats: at least a twentieth has to be gained. -/
def compress (zstd : Zstd) (plaintext : List UInt8) (want : Compression) :
    Reading (List UInt8 × Compression) :=
  if want = .none ∨ plaintext = [] then pure (plaintext, .none)
  else
    match zstd.compress plaintext with
    | .error message => .fail (.backup (.io message))
    | .ok compressed =>
        if 19 * plaintext.length < 20 * compressed.length then pure (plaintext, .none)
        else pure (compressed, .zstd)

def decompress (zstd : Zstd) (stored : List UInt8) (used : Compression) (plainLen : ℕ) :
    Reading (List UInt8) := do
  let out ← (match used with
    | .none => pure stored
    | .zstd =>
        match zstd.decompress stored plainLen with
        | .error message => format s!"compressed blob: {message}"
        | .ok out => pure out : Reading (List UInt8))
  if out.length ≠ plainLen then
    format s!"blob: {out.length} bytes after decompression, but the header says {plainLen}"
  else pure out

structure SealedBlob where
  blobType : BlobType
  compression : Compression
  id : ObjectId
  plainLength : ℕ
  sealedBytes : List StoredByte

def SealedBlob.seal (zstd : Zstd) (nonce : Nonce) (compression : Compression) (blobType : BlobType)
    (id : ObjectId) (plaintext : List UInt8) : Reading SealedBlob :=
  if 2 ^ 32 ≤ plaintext.length then
    .fail (.backup (.invalid s!"blob of {plaintext.length} bytes is too large"))
  else do
    let (stored, compression) ← compress zstd plaintext compression
    let sealedBytes ← sealBytes (keyKind blobType) nonce stored (blobAad blobType id)
    pure ⟨blobType, compression, id, plaintext.length, sealedBytes⟩

def SealedBlob.fromEntry (e : Entry) (sealedBytes : List StoredByte) : SealedBlob :=
  ⟨e.blobType, e.compression, e.id, e.plainLength, sealedBytes⟩

/-- `seen` has the ids of the entries. -/
structure Writer where
  id : ObjectId
  compression : Compression
  buf : List StoredByte
  entries : List Entry

structure Pack where
  id : ObjectId
  data : List StoredByte
  entries : List Entry

namespace Writer

def new (id : ObjectId) (compression : Compression) : Writer := ⟨id, compression, [], []⟩

def has (w : Writer) (id : ObjectId) : Bool := decide (id ∈ w.entries.map Entry.id)

def push (w : Writer) (blob : SealedBlob) : Reading (Bool × Writer) :=
  if w.has blob.id then pure (false, w)
  else if w.buf.length < 2 ^ 32 ∧
      w.buf.length + blob.sealedBytes.length % 2 ^ 32 < 2 ^ 32 then
    pure (true, { w with
      buf := w.buf ++ blob.sealedBytes
      entries := w.entries ++ [⟨blob.blobType, blob.compression, blob.id, w.buf.length,
        blob.sealedBytes.length % 2 ^ 32, blob.plainLength⟩] })
  else .fail (.backup (.invalid "pack has grown beyond the addressable size"))

def add (zstd : Zstd) (w : Writer) (nonce : Nonce) (blobType : BlobType) (id : ObjectId)
    (plaintext : List UInt8) : Reading (Bool × Writer) :=
  if w.has id then pure (false, w)
  else do
    let blob ← SealedBlob.seal zstd nonce w.compression blobType id plaintext
    w.push blob

def finish (w : Writer) (nonce : Nonce) : Reading Pack :=
  if w.entries = [] then .fail (.backup (.invalid "refusing to finish an empty pack"))
  else do
    let sealedHeader ← sealBytes .meta nonce (encodeEntries w.entries) (headerAad w.id)
    if sealedHeader.length ≤ maxHeaderSize then
      pure ⟨w.id, w.buf ++ (sealedHeader ++
        (Prune.PackWriter.encodeFooter sealedHeader.length).map .plain), w.entries⟩
    else .fail (.backup (.invalid "pack header exceeds the size limit"))

end Writer

def tailReadSize : ℕ := 4 * 1024

def magic : List UInt8 := "RFMB".toList.map fun c => UInt8.ofNat c.toNat

def decodeFooter (footer : List UInt8) : Metered BackupError ℕ :=
  if footer.length ≠ footerSize then .fail (.format s!"pack footer of {footer.length} bytes")
  else if (footer.take 8).drop 4 ≠ magic then
    .fail (.format "pack: not a pack object, or it is truncated")
  else if ofLe (footer.drop 8) ≠ formatVersion then
    .fail (.format s!"pack: format version {ofLe (footer.drop 8)}, this build understands {formatVersion}")
  else if maxHeaderSize < ofLe (footer.take 4) then
    .fail (.format s!"pack: header claims {ofLe (footer.take 4)} bytes, over the {maxHeaderSize} byte limit")
  else pure (ofLe (footer.take 4))

def decodeHeader (packId : ObjectId) (sealedBytes : List StoredByte) (dataLen : ℕ) :
    Reading (List Entry) := do
  let what := s!"pack {short packId} header"
  let plaintext ← openBytes .meta sealedBytes (headerAad packId) what
  let (entries, rest) ← (decodeEntries plaintext).mapError .backup
  if rest ≠ [] then format s!"{what}: {rest.length} trailing bytes"
  else
    match entries.find? fun e => dataLen < e.end with
    | some e =>
        format s!"{what}: blob {short e.id} ends at {e.end} but the blob region is {dataLen} bytes"
    | none => pure entries

def headerRange (packId : ObjectId) (footer : List UInt8) (size : ℕ) : Reading (ℕ × ℕ) := do
  let headerLen ← (decodeFooter footer).mapError fun e =>
    .backup (.format s!"pack {short packId}: {e.message}")
  if footerSize + headerLen ≤ size then pure (size - (footerSize + headerLen), headerLen)
  else
    format s!"pack {short packId} declares a {headerLen} byte header but is only {size} bytes"

def parseHeader (keys : Keys) (packId : ObjectId) (data : List StoredByte) : Reading (List Entry) :=
  if data.length < footerSize then format s!"pack {short packId} is only {data.length} bytes"
  else do
    let footer ← Metered.slice data (data.length - footerSize) data.length
    let (start, headerLen) ← headerRange packId (footer.map keys.read) data.length
    let sealedBytes ← Metered.slice data start (start + headerLen)
    decodeHeader packId sealedBytes start

abbrev GetRange := ℕ → ℕ → Except String (List StoredByte)

def fetch (getRange : GetRange) (offset len : ℕ) : Reading (List StoredByte) :=
  match getRange offset len with
  | .ok bytes => pure bytes
  | .error message => .fail (.backup (.mirror message))

def loadHeaderSized (keys : Keys) (getRange : GetRange) (packId : ObjectId) (size : ℕ) :
    Reading (List Entry) :=
  if size < footerSize then format s!"pack {short packId} is only {size} bytes"
  else do
    let readLen := min tailReadSize size
    let tail ← fetch getRange (size - readLen) readLen
    if tail.length < footerSize then Metered.panicked
    else do
      let footer ← Metered.slice tail (tail.length - footerSize) tail.length
      let (start, headerLen) ← headerRange packId (footer.map keys.read) size
      let sealedBytes ← (if size - readLen ≤ start then
          Metered.slice tail (start - (size - readLen)) (start - (size - readLen) + headerLen)
        else fetch getRange start headerLen : Reading (List StoredByte))
      decodeHeader packId sealedBytes start

def decodeBlob (keys : Keys) (zstd : Zstd) (e : Entry) (sealedBytes : List StoredByte) :
    Reading (List UInt8) :=
  let what := s!"{e.blobType.asStr} blob {short e.id}"
  if sealedBytes.length ≠ e.length then
    format s!"{what}: {sealedBytes.length} bytes, but its entry says {e.length}"
  else do
    let stored ← openBytes (keyKind e.blobType) sealedBytes (blobAad e.blobType e.id) what
    let plaintext ← decompress zstd stored e.compression e.plainLength
    if keys.blobId plaintext = e.id then pure plaintext else .fail (.corrupt what)

section Names

variable {id other : ObjectId} {blobType blobType' : BlobType}

def hexDigit (c : Char) : ℕ := if c.isDigit then c.toNat - 48 else c.toNat - 87

def hexValue (digits : List Char) : ℕ := digits.foldl (fun n c => 16 * n + hexDigit c) 0

theorem hexValue_concat (digits : List Char) (c : Char) :
    hexValue (digits ++ [c]) = 16 * hexValue digits + hexDigit c := by
  rw [hexValue, List.foldl_append]
  rfl

theorem hexDigit_digitChar {d : ℕ} (hd : d < 16) : hexDigit (Nat.digitChar d) = d := by
  have hall : ∀ d < 16, hexDigit (Nat.digitChar d) = d := by decide
  exact hall d hd

theorem hexValue_zeros (zeros : ℕ) : hexValue (List.replicate zeros '0') = 0 := by
  induction zeros with
  | zero => rfl
  | succ zeros ih =>
      rw [List.replicate_succ', hexValue_concat, ih]
      rfl

theorem hexValue_padded (zeros n : ℕ) :
    hexValue (List.replicate zeros '0' ++ Nat.toDigits 16 n) = n := by
  induction n using Nat.base_induction 16 (by decide) with
  | single d hd =>
      rw [Nat.toDigits_of_lt_base hd, hexValue_concat, hexValue_zeros, hexDigit_digitChar hd]
      omega
  | digit n d hd hn ih =>
      rw [← Nat.toDigits_append_toDigits (by decide) hn hd, Nat.toDigits_of_lt_base hd,
        ← List.append_assoc, hexValue_concat, ih, hexDigit_digitChar hd]

theorem hashText_inj (h : hashText id = hashText other) : id = other := by
  unfold hashText at h
  have hdigits := congrArg hexValue (String.ofList_injective h)
  rw [hexValue_padded, hexValue_padded] at hdigits
  exact Fin.ext hdigits

theorem append_inj_of_length {front front' back back' : String} (hlen : front.length = front'.length)
    (h : front ++ back = front' ++ back') : front = front' ∧ back = back' := by
  have hlist := congrArg String.toList h
  rw [String.toList_append, String.toList_append] at hlist
  rw [← String.length_toList, ← String.length_toList] at hlen
  obtain ⟨hfront, hback⟩ := List.append_inj hlist hlen
  exact ⟨String.toList_inj.mp hfront, String.toList_inj.mp hback⟩

theorem context_inj {kind kind' : KeyKind} {aad aad' : String}
    (h : kind.context aad = kind'.context aad') : aad = aad' := by
  have hlen : "data key ".length = "meta key ".length := by decide
  unfold KeyKind.context at h
  cases kind <;> cases kind'
  · exact (append_inj_of_length rfl h).2
  · exact (append_inj_of_length hlen h).2
  · exact (append_inj_of_length hlen.symm h).2
  · exact (append_inj_of_length rfl h).2

theorem blobAad_inj (h : blobAad blobType id = blobAad blobType' other) :
    blobType = blobType' ∧ id = other := by
  have hlen : ("rfm-backup:v1:blob:" ++ blobType.asStr ++ ":").length =
      ("rfm-backup:v1:blob:" ++ blobType'.asStr ++ ":").length := by
    cases blobType <;> cases blobType' <;> decide
  obtain ⟨hfront, hid⟩ := append_inj_of_length hlen h
  refine ⟨?_, hashText_inj hid⟩
  cases blobType <;> cases blobType'
  · rfl
  · exact absurd hfront (by decide)
  · exact absurd hfront (by decide)
  · rfl

theorem headerAad_inj (h : headerAad id = headerAad other) : id = other :=
  hashText_inj (append_inj_of_length rfl h).2

end Names

section Sealing

variable {nonce : List UInt8} {aad aad' : String} {bytes : List StoredByte}
  {plaintext other : List UInt8}

theorem encryptBytes_opens (hnonce : nonce.length = nonceSize)
    (h : encryptBytes nonce aad plaintext = some bytes) :
    decryptBytes bytes aad = some plaintext ∧ bytes.length = ciphertextLen plaintext.length := by
  rw [encryptBytes_eq] at h
  split_ifs at h with hcount
  cases h
  have hbegins : (nonce.map StoredByte.plain).length = nonceSize := by
    rw [List.length_map, hnonce]
  have hlen := length_sealAll_chunkFrames nonce aad 0 plaintext
  constructor
  · rw [decryptBytes_framed hnonce]
    exact decryptBody_chunkFrames (counted_chunkFrames hcount) (Nat.lt_succ_self _)
  · rw [List.length_append, hbegins, hlen]

theorem openFrame_first {position : ℕ} {last : Bool}
    (h : openFrame nonce aad position last bytes = some plaintext) :
    ∃ frame, bytes[0]? = some (.sealed frame 0) ∧ frame.aad = aad := by
  rw [openFrame_eq_some h, getElem_seal (Nat.add_pos_right _ tagSize_pos)]
  exact ⟨_, rfl, rfl⟩

theorem decryptBytes_first (h : decryptBytes bytes aad = some plaintext) :
    ∃ frame, bytes[nonceSize]? = some (.sealed frame 0) ∧ frame.aad = aad := by
  unfold decryptBytes at h
  split_ifs at h
  obtain ⟨nonce, _, hbody⟩ := Option.bind_eq_some_iff.mp h
  have hdrop : bytes[nonceSize]? = (bytes.drop nonceSize)[0]? := by
    rw [List.getElem?_drop, Nat.add_zero]
  rw [hdrop]
  dsimp only at hbody
  generalize bytes.drop nonceSize = body at hbody
  unfold decryptBody at hbody
  split_ifs at hbody with hlong
  · obtain ⟨chunk, hopen, _⟩ := Option.bind_eq_some_iff.mp hbody
    obtain ⟨frame, hfirst, haad⟩ := openFrame_first hopen
    rw [List.getElem?_take_of_lt (by decide)] at hfirst
    exact ⟨frame, hfirst, haad⟩
  · exact openFrame_first hbody

theorem decryptBytes_unique (h : decryptBytes bytes aad = some plaintext)
    (h' : decryptBytes bytes aad' = some other) : aad = aad' := by
  obtain ⟨frame, hfirst, rfl⟩ := decryptBytes_first h
  obtain ⟨frame', hfirst', rfl⟩ := decryptBytes_first h'
  rw [hfirst] at hfirst'
  cases hfirst'
  rfl

end Sealing

def Zstd.RoundTrips (zstd : Zstd) : Prop :=
  ∀ plaintext compressed, zstd.compress plaintext = .ok compressed →
    zstd.decompress compressed plaintext.length = .ok plaintext

/-- A sealed blob of a plaintext: sealed for its keyed hash, or copied from a pack where it opens. -/
inductive Sealed (keys : Keys) (zstd : Zstd) : SealedBlob → List UInt8 → Prop
  | fresh {nonce : Nonce} {want : Compression} {blobType : BlobType} {plaintext : List UInt8}
      {blob : SealedBlob} (h : (SealedBlob.seal zstd nonce want blobType (keys.blobId plaintext)
        plaintext).result = .ok blob) : Sealed keys zstd blob plaintext
  | copied {e : Entry} {sealedBytes : List StoredByte} {plaintext : List UInt8} (hfits : e.Fits)
      (h : (decodeBlob keys zstd e sealedBytes).result = .ok plaintext) :
      Sealed keys zstd (.fromEntry e sealedBytes) plaintext

inductive Tiles : ℕ → List Entry → ℕ → Prop
  | nil {start : ℕ} : Tiles start [] start
  | cons {e : Entry} {entries : List Entry} {start stop : ℕ} (hstart : e.offset = start)
      (hrest : Tiles e.end entries stop) : Tiles start (e :: entries) stop

def cut (e : Entry) (data : List StoredByte) : List StoredByte := (data.drop e.offset).take e.length

inductive Op where
  | add (nonce : Nonce) (blobType : BlobType) (id : ObjectId) (plaintext : List UInt8)
  | push (blob : SealedBlob)

def Op.id : Op → ObjectId
  | .add _ _ id _ => id
  | .push blob => blob.id

def Op.run (zstd : Zstd) (w : Writer) : Op → Reading (Bool × Writer)
  | .add nonce blobType id plaintext => w.add zstd nonce blobType id plaintext
  | .push blob => w.push blob

def runAll (zstd : Zstd) : List Op → Writer → Reading Writer
  | [], w => pure w
  | op :: ops, w => do
      let (_, w) ← op.run zstd w
      runAll zstd ops w

def Op.Carries (keys : Keys) (zstd : Zstd) : Op → List UInt8 → Prop
  | .add _ _ id given, plaintext => id = keys.blobId given ∧ given = plaintext
  | .push blob, plaintext => Sealed keys zstd blob plaintext

section Blobs

variable {keys : Keys} {zstd : Zstd} {e e' : Entry} {blob : SealedBlob}
  {bytes : List StoredByte} {plaintext other : List UInt8}

theorem decompress_eq_ok {stored : List UInt8} {used : Compression} {plainLen : ℕ} :
    (decompress zstd stored used plainLen).result = .ok plaintext ↔ plaintext.length = plainLen ∧
      match used with
      | .none => stored = plaintext
      | .zstd => zstd.decompress stored plainLen = .ok plaintext := by
  unfold decompress
  rw [Metered.bind_eq_ok]
  have hchecked : ∀ out : List UInt8, (if out.length ≠ plainLen then
      format s!"blob: {out.length} bytes after decompression, but the header says {plainLen}"
      else pure out : Reading (List UInt8)).result = .ok plaintext ↔
        out = plaintext ∧ plaintext.length = plainLen := by
    intro out
    by_cases hlen : out.length = plainLen
    · rw [if_neg (not_not.mpr hlen), Metered.result_pure, Except.ok.injEq]
      constructor
      · rintro rfl
        exact ⟨rfl, hlen⟩
      · exact And.left
    · rw [if_pos hlen]
      apply iff_of_false nofun
      rintro ⟨rfl, hlen'⟩
      exact hlen hlen'
  simp only [hchecked]
  cases used with
  | none =>
      dsimp only
      rw [Metered.result_pure]
      constructor
      · rintro ⟨out, hout, rfl, hlen⟩
        cases hout
        exact ⟨hlen, rfl⟩
      · rintro ⟨hlen, rfl⟩
        exact ⟨_, rfl, rfl, hlen⟩
  | zstd =>
      dsimp only
      cases zstd.decompress stored plainLen with
      | error message =>
          constructor
          · rintro ⟨_, hout, _⟩
            cases hout
          · rintro ⟨_, hout⟩
            cases hout
      | ok expanded =>
          constructor
          · rintro ⟨out, hout, rfl, hlen⟩
            cases hout
            exact ⟨hlen, rfl⟩
          · rintro ⟨hlen, hout⟩
            cases hout
            exact ⟨_, rfl, rfl, hlen⟩

theorem decompress_compress (hzstd : zstd.RoundTrips) {want used : Compression} {stored : List UInt8}
    (h : (compress zstd plaintext want).result = .ok (stored, used)) :
    (decompress zstd stored used plaintext.length).result = .ok plaintext := by
  rw [decompress_eq_ok]
  refine ⟨rfl, ?_⟩
  unfold compress at h
  by_cases hverbatim : want = .none ∨ plaintext = []
  · rw [if_pos hverbatim] at h
    cases h
    rfl
  · rw [if_neg hverbatim] at h
    cases hcompressed : zstd.compress plaintext with
    | error message =>
        rw [hcompressed] at h
        cases h
    | ok compressed =>
        rw [hcompressed] at h
        dsimp only at h
        split_ifs at h
        · cases h
          rfl
        · cases h
          exact hzstd plaintext _ hcompressed

theorem openBytes_eq_ok {kind : KeyKind} {aad what : String} :
    (openBytes kind bytes aad what).result = .ok plaintext ↔
      decryptBytes bytes (kind.context aad) = some plaintext := Metered.orFail_eq_ok

theorem decodeBlob_eq_ok : (decodeBlob keys zstd e bytes).result = .ok plaintext ↔
    bytes.length = e.length ∧ ∃ stored,
      decryptBytes bytes ((keyKind e.blobType).context (blobAad e.blobType e.id)) = some stored ∧
        (decompress zstd stored e.compression e.plainLength).result = .ok plaintext ∧
          keys.blobId plaintext = e.id := by
  unfold decodeBlob
  dsimp only
  by_cases hlen : bytes.length = e.length
  · rw [if_neg (not_not.mpr hlen)]
    simp only [Metered.bind_eq_ok, openBytes_eq_ok]
    constructor
    · rintro ⟨stored, hstored, out, hout, hid⟩
      split_ifs at hid with hnamed
      · cases hid
        exact ⟨hlen, stored, hstored, hout, hnamed⟩
      · cases hid
    · rintro ⟨_, stored, hstored, hout, hnamed⟩
      refine ⟨stored, hstored, plaintext, hout, ?_⟩
      rw [if_pos hnamed, Metered.result_pure]
  · rw [if_pos hlen]
    exact iff_of_false nofun fun h => hlen h.1

theorem steps_eq_ok {compressed : Reading (List UInt8 × Compression)}
    {sealUp : List UInt8 → String → Reading (List StoredByte)} {blobType : BlobType}
    {id : ObjectId} (h : (do
      let (stored, compression) ← compressed
      let sealedBytes ← sealUp stored (blobAad blobType id)
      pure ⟨blobType, compression, id, plaintext.length, sealedBytes⟩ : Reading SealedBlob).result =
        .ok blob) :
    ∃ stored used sealedBytes, compressed.result = .ok (stored, used) ∧
      (sealUp stored (blobAad blobType id)).result = .ok sealedBytes ∧
        blob = ⟨blobType, used, id, plaintext.length, sealedBytes⟩ := by
  obtain ⟨⟨stored, used⟩, hstored, h⟩ := Metered.bind_eq_ok.mp h
  obtain ⟨sealedBytes, hsealed, h⟩ := Metered.bind_eq_ok.mp h
  exact ⟨stored, used, sealedBytes, hstored, hsealed, (Except.ok.inj h).symm⟩

theorem seal_eq_ok {nonce : Nonce} {want : Compression} {blobType : BlobType} {id : ObjectId}
    (h : (SealedBlob.seal zstd nonce want blobType id plaintext).result = .ok blob) :
    plaintext.length < 2 ^ 32 ∧ ∃ stored used sealedBytes,
      (compress zstd plaintext want).result = .ok (stored, used) ∧
        (sealBytes (keyKind blobType) nonce stored (blobAad blobType id)).result =
          .ok sealedBytes ∧
        blob = ⟨blobType, used, id, plaintext.length, sealedBytes⟩ := by
  unfold SealedBlob.seal at h
  split_ifs at h with hlong
  · cases h
  · exact ⟨Nat.lt_of_not_le hlong, steps_eq_ok h⟩

theorem seal_id {nonce : Nonce} {want : Compression} {blobType : BlobType} {id : ObjectId}
    (h : (SealedBlob.seal zstd nonce want blobType id plaintext).result = .ok blob) :
    blob.id = id := by
  obtain ⟨_, _, _, _, _, _, rfl⟩ := seal_eq_ok h
  rfl

theorem Sealed.opens (hzstd : zstd.RoundTrips) (h : Sealed keys zstd blob plaintext) :
    blob.plainLength < 2 ^ 32 ∧ ∃ stored,
      decryptBytes blob.sealedBytes ((keyKind blob.blobType).context (blobAad blob.blobType blob.id)) =
        some stored ∧
      (decompress zstd stored blob.compression blob.plainLength).result = .ok plaintext ∧
        keys.blobId plaintext = blob.id := by
  cases h with
  | @fresh nonce want blobType plaintext blob h =>
      obtain ⟨hshort, stored, used, bytes, hstored, hbytes, rfl⟩ := seal_eq_ok h
      obtain ⟨hopens, _⟩ := encryptBytes_opens nonce.length_bytes (Metered.orFail_eq_ok.mp hbytes)
      exact ⟨hshort, stored, hopens, decompress_compress hzstd hstored, rfl⟩
  | copied hfits h =>
      exact ⟨hfits.2.2, (decodeBlob_eq_ok.mp h).2⟩

theorem decompress_within {stored : List UInt8} {used : Compression} {plainLen : ℕ} :
    (decompress zstd stored used plainLen).Within 0 fun _ => 0 := by
  unfold decompress format
  have hexpand : (match used with
    | .none => pure stored
    | .zstd =>
        match zstd.decompress stored plainLen with
        | .error message => .fail (.backup (.format s!"compressed blob: {message}"))
        | .ok out => pure out : Reading (List UInt8)).Within 0 fun _ => 0 := by
    cases used with
    | none => exact Metered.within_pure le_rfl
    | zstd =>
        dsimp only
        cases zstd.decompress stored plainLen with
        | error message => exact Metered.within_fail
        | ok out => exact Metered.within_pure le_rfl
  apply hexpand.bind
  intro out _
  split_ifs
  · exact Metered.within_fail
  · exact Metered.within_pure le_rfl

theorem decodeBlob_within : (decodeBlob keys zstd e bytes).Within 0 fun _ => 0 := by
  unfold decodeBlob format
  dsimp only
  by_cases hlen : bytes.length = e.length
  · rw [if_neg (not_not.mpr hlen)]
    apply Metered.Within.bind (Metered.within_orFail fun _ _ => le_rfl)
    intro stored _
    apply decompress_within.bind
    intro out _
    split_ifs
    · exact Metered.within_pure le_rfl
    · exact Metered.within_fail
  · rw [if_pos hlen]
    exact Metered.within_fail

theorem decodeBlob_misnamed (h : (decodeBlob keys zstd e bytes).result = .ok plaintext)
    (hne : e'.blobType ≠ e.blobType ∨ e'.id ≠ e.id) :
    (decodeBlob keys zstd e' bytes).result ≠ .ok other := by
  intro h'
  obtain ⟨_, stored, hstored, _⟩ := decodeBlob_eq_ok.mp h
  obtain ⟨_, stored', hstored', _⟩ := decodeBlob_eq_ok.mp h'
  obtain ⟨htype, hid⟩ := blobAad_inj (context_inj (decryptBytes_unique hstored' hstored))
  exact hne.elim (absurd htype) (absurd hid)

theorem decodeBlob_otherwise (h : (decodeBlob keys zstd e bytes).result = .ok plaintext)
    (hunforged : ∀ other, keys.blobId other = keys.blobId plaintext → other = plaintext)
    (h' : (decodeBlob keys zstd e' bytes).result = .ok other) :
    other = plaintext ∧ e'.plainLength = e.plainLength := by
  obtain ⟨_, stored, hstored, hout, hid⟩ := decodeBlob_eq_ok.mp h
  obtain ⟨_, stored', hstored', hout', hid'⟩ := decodeBlob_eq_ok.mp h'
  obtain ⟨_, hsame⟩ := blobAad_inj (context_inj (decryptBytes_unique hstored' hstored))
  have hother : other = plaintext := by
    apply hunforged
    rw [hid, hid', hsame]
  have hlen := (decompress_eq_ok.mp hout).1
  have hlen' := (decompress_eq_ok.mp hout').1
  rw [hother] at hlen'
  exact ⟨hother, hlen'.symm.trans hlen⟩

end Blobs

section Tiling

variable {e : Entry} {entries : List Entry} {start stop : ℕ}

theorem Tiles.concat (h : Tiles start entries stop) (he : e.offset = stop) :
    Tiles start (entries ++ [e]) e.end := by
  induction h with
  | nil => exact .cons he .nil
  | cons hstart hrest ih => exact .cons hstart (ih he)

theorem Tiles.le (h : Tiles start entries stop) : start ≤ stop := by
  induction h with
  | nil => exact le_rfl
  | cons hstart hrest ih =>
      unfold Entry.end at ih
      omega

theorem Tiles.end_le (h : Tiles start entries stop) : ∀ e ∈ entries, e.end ≤ stop := by
  induction h with
  | nil => nofun
  | cons hstart hrest ih =>
      rw [List.forall_mem_cons]
      exact ⟨hrest.le, ih⟩

end Tiling

section Writing

variable {keys : Keys} {zstd : Zstd} {held : ObjectId → List UInt8 → Prop} {e : Entry}
  {blob : SealedBlob} {w w' : Writer} {added : Bool} {op : Op} {ops : List Op}
  {buf more : List StoredByte} {plaintext : List UInt8}

structure Laid (keys : Keys) (zstd : Zstd) (held : ObjectId → List UInt8 → Prop) (w : Writer) :
    Prop where
  tiles : Tiles 0 w.entries w.buf.length
  fits : ∀ e ∈ w.entries, e.Fits
  opens : ∀ e ∈ w.entries, ∃ plaintext, held e.id plaintext ∧
    (decodeBlob keys zstd e (cut e w.buf)).result = .ok plaintext

theorem cut_append (h : e.end ≤ buf.length) : cut e (buf ++ more) = cut e buf := by
  unfold Entry.end at h
  unfold cut
  rw [List.drop_append_of_le_length (by omega),
    List.take_append_of_le_length (by rw [List.length_drop]; omega)]

theorem laid_new (id : ObjectId) (compression : Compression) :
    Laid keys zstd held (.new id compression) where
  tiles := .nil
  fits := nofun
  opens := nofun

theorem push_cases (h : (w.push blob).result = .ok (added, w')) :
    blob.id ∈ w.entries.map Entry.id ∧ w' = w ∨
      w.buf.length + blob.sealedBytes.length % 2 ^ 32 < 2 ^ 32 ∧
        w' = { w with
          buf := w.buf ++ blob.sealedBytes
          entries := w.entries ++ [⟨blob.blobType, blob.compression, blob.id, w.buf.length,
            blob.sealedBytes.length % 2 ^ 32, blob.plainLength⟩] } := by
  unfold Writer.push at h
  by_cases hhas : w.has blob.id = true
  · rw [if_pos hhas] at h
    cases h
    exact .inl ⟨of_decide_eq_true hhas, rfl⟩
  · rw [if_neg hhas] at h
    split_ifs at h with hroom
    · cases h
      exact .inr ⟨hroom.2, rfl⟩
    · cases h

theorem run_cases (hcarries : op.Carries keys zstd plaintext)
    (h : (op.run zstd w).result = .ok (added, w')) :
    op.id ∈ w.entries.map Entry.id ∧ w' = w ∨
      ∃ blob, Sealed keys zstd blob plaintext ∧ blob.id = op.id ∧
        (w.push blob).result = .ok (added, w') := by
  cases op with
  | push blob => exact .inr ⟨blob, hcarries, rfl, h⟩
  | add nonce blobType id given =>
      obtain ⟨rfl, rfl⟩ := hcarries
      change (w.add zstd nonce blobType _ given).result = _ at h
      unfold Writer.add at h
      by_cases hhas : w.has (keys.blobId given) = true
      · rw [if_pos hhas] at h
        cases h
        exact .inl ⟨of_decide_eq_true hhas, rfl⟩
      · rw [if_neg hhas, Metered.bind_eq_ok] at h
        obtain ⟨blob, hblob, hpush⟩ := h
        exact .inr ⟨blob, .fresh hblob, seal_id hblob, hpush⟩

theorem Laid.push (hzstd : zstd.RoundTrips) (h : Laid keys zstd held w)
    (hsealed : Sealed keys zstd blob plaintext) (hheld : held blob.id plaintext)
    (hpush : (w.push blob).result = .ok (added, w')) (hsize : w'.buf.length < 2 ^ 32) :
    Laid keys zstd held w' ∧ blob.id ∈ w'.entries.map Entry.id := by
  obtain ⟨hmem, rfl⟩ | ⟨_, rfl⟩ := push_cases hpush
  · exact ⟨h, hmem⟩
  · obtain ⟨hplain, stored, hstored, hout, hid⟩ := hsealed.opens hzstd
    dsimp only at hsize
    rw [List.length_append] at hsize
    have hlen : blob.sealedBytes.length % 2 ^ 32 = blob.sealedBytes.length :=
      Nat.mod_eq_of_lt (by omega)
    have hcut : ((w.buf ++ blob.sealedBytes).drop w.buf.length).take blob.sealedBytes.length =
        blob.sealedBytes := by
      rw [List.drop_left, List.take_length]
    rw [hlen]
    refine ⟨⟨?_, ?_, ?_⟩, ?_⟩
    · dsimp only
      rw [List.length_append]
      exact h.tiles.concat rfl
    · dsimp only
      rw [List.forall_mem_append, List.forall_mem_singleton]
      exact ⟨h.fits, by dsimp only; omega, by dsimp only; omega, hplain⟩
    · dsimp only
      rw [List.forall_mem_append, List.forall_mem_singleton]
      constructor
      · intro e he
        rw [cut_append (h.tiles.end_le e he)]
        exact h.opens e he
      · refine ⟨plaintext, hheld, ?_⟩
        unfold cut
        dsimp only
        rw [hcut, decodeBlob_eq_ok]
        exact ⟨rfl, stored, hstored, hout, hid⟩
    · dsimp only
      rw [List.map_append]
      exact List.mem_append_right _ (List.mem_singleton_self _)

theorem push_grows (h : (w.push blob).result = .ok (added, w')) :
    w'.id = w.id ∧ w.buf.length ≤ w'.buf.length ∧
      ∀ id ∈ w.entries.map Entry.id, id ∈ w'.entries.map Entry.id := by
  obtain ⟨_, rfl⟩ | ⟨_, rfl⟩ := push_cases h
  · exact ⟨rfl, le_rfl, fun _ h => h⟩
  · refine ⟨rfl, ?_, fun id hid => ?_⟩
    · dsimp only
      rw [List.length_append]
      exact Nat.le_add_right _ _
    · dsimp only
      rw [List.map_append]
      exact List.mem_append_left _ hid

theorem run_grows (hcarries : op.Carries keys zstd plaintext)
    (h : (op.run zstd w).result = .ok (added, w')) :
    w'.id = w.id ∧ w.buf.length ≤ w'.buf.length ∧
      ∀ id ∈ w.entries.map Entry.id, id ∈ w'.entries.map Entry.id := by
  obtain ⟨_, rfl⟩ | ⟨_, _, _, hpush⟩ := run_cases hcarries h
  · exact ⟨rfl, le_rfl, fun _ h => h⟩
  · exact push_grows hpush

theorem runAll_grows (hcarries : ∀ op ∈ ops, ∃ plaintext, op.Carries keys zstd plaintext)
    (h : (runAll zstd ops w).result = .ok w') : w'.id = w.id ∧ w.buf.length ≤ w'.buf.length ∧
      ∀ id ∈ w.entries.map Entry.id, id ∈ w'.entries.map Entry.id := by
  induction ops generalizing w with
  | nil =>
      cases h
      exact ⟨rfl, le_rfl, fun _ h => h⟩
  | cons op ops ih =>
      obtain ⟨⟨_, hop⟩, hops⟩ := List.forall_mem_cons.mp hcarries
      unfold runAll at h
      rw [Metered.bind_eq_ok] at h
      obtain ⟨⟨added, next⟩, hrun, hrest⟩ := h
      obtain ⟨hid, hsize, hkeeps⟩ := run_grows hop hrun
      obtain ⟨hid', hsize', hkeeps'⟩ := ih hops hrest
      exact ⟨hid'.trans hid, hsize.trans hsize', fun id h => hkeeps' id (hkeeps id h)⟩

theorem Laid.run (hzstd : zstd.RoundTrips) (h : Laid keys zstd held w)
    (hcarries : op.Carries keys zstd plaintext) (hheld : held op.id plaintext)
    (hrun : (op.run zstd w).result = .ok (added, w')) (hsize : w'.buf.length < 2 ^ 32) :
    Laid keys zstd held w' ∧ op.id ∈ w'.entries.map Entry.id := by
  obtain ⟨hmem, rfl⟩ | ⟨blob, hsealed, hid, hpush⟩ := run_cases hcarries hrun
  · exact ⟨h, hmem⟩
  · rw [← hid] at hheld ⊢
    exact h.push hzstd hsealed hheld hpush hsize

theorem Laid.runAll (hzstd : zstd.RoundTrips) (h : Laid keys zstd held w)
    (hcarries : ∀ op ∈ ops, ∃ plaintext, op.Carries keys zstd plaintext ∧ held op.id plaintext)
    (hrun : (runAll zstd ops w).result = .ok w') (hsize : w'.buf.length < 2 ^ 32) :
    Laid keys zstd held w' ∧ ∀ op ∈ ops, op.id ∈ w'.entries.map Entry.id := by
  induction ops generalizing w with
  | nil =>
      cases hrun
      exact ⟨h, nofun⟩
  | cons op ops ih =>
      obtain ⟨⟨_, hop, hheld⟩, hops⟩ := List.forall_mem_cons.mp hcarries
      unfold PackFormat.runAll at hrun
      rw [Metered.bind_eq_ok] at hrun
      obtain ⟨⟨added, next⟩, hfirst, hrest⟩ := hrun
      have hgrows := runAll_grows (fun op hop => (hops op hop).imp fun _ h => h.1) hrest
      obtain ⟨hnext, hmem⟩ := h.run hzstd hop hheld hfirst (by omega)
      obtain ⟨hlast, hall⟩ := ih hnext hops hrest
      exact ⟨hlast, List.forall_mem_cons.mpr ⟨hgrows.2.2 _ hmem, hall⟩⟩

end Writing

section Headers

variable {keys : Keys} {zstd : Zstd} {held : ObjectId → List UInt8 → Prop} {w : Writer}
  {nonce : Nonce} {packId other : ObjectId} {entries : List Entry} {header : List StoredByte}
  {dataLen headerLen : ℕ}

theorem sealHeader_ok (nonce : Nonce) (packId : ObjectId) (entries : List Entry)
    (hfits : ciphertextLen (4 + entries.length * entrySize) ≤ maxHeaderSize) :
    ∃ header, sealBytes .meta nonce (encodeEntries entries) (headerAad packId) = pure header ∧
      header.length ≤ maxHeaderSize ∧
      decryptBytes header (KeyKind.meta.context (headerAad packId)) = some (encodeEntries entries) := by
  have hlen : (encodeEntries entries).length = 4 + entries.length * entrySize := by
    rw [encodeEntries, List.length_append, length_toLe, length_flatMap_encode, Nat.mul_comm]
  have hcount : frameCount (encodeEntries entries).length ≤ counterMax + 1 := by
    rw [hlen]
    change nonceSize + _ + frameCount (4 + entries.length * entrySize) * tagSize ≤ _ at hfits
    simp only [nonceSize, tagSize, maxHeaderSize, counterMax] at hfits ⊢
    omega
  have hsealed := encryptBytes_eq nonce.bytes (KeyKind.meta.context (headerAad packId))
    (encodeEntries entries)
  rw [if_pos hcount] at hsealed
  obtain ⟨hopens, hlength⟩ := encryptBytes_opens nonce.length_bytes hsealed
  refine ⟨_, ?_, ?_, hopens⟩
  · unfold sealBytes
    rw [hsealed]
    rfl
  · rw [hlength, hlen]
    exact hfits

theorem decodeFooter_encode (hlen : headerLen ≤ maxHeaderSize) :
    decodeFooter (Prune.PackWriter.encodeFooter headerLen) = pure headerLen := by
  have hfooter : Prune.PackWriter.encodeFooter headerLen =
      toLe 4 headerLen ++ (magic ++ toLe 4 formatVersion) := List.append_assoc ..
  have hmagic : magic.length = 4 := by decide
  have hfirst : (toLe 4 headerLen).length = 4 := length_toLe
  have hfront : (toLe 4 headerLen ++ magic).length = 8 := by
    rw [List.length_append, hfirst, hmagic]
  have htake : (toLe 4 headerLen ++ (magic ++ toLe 4 formatVersion)).take 8 =
      toLe 4 headerLen ++ magic := by
    rw [← List.append_assoc, List.take_left' hfront]
  have hdrop : (toLe 4 headerLen ++ (magic ++ toLe 4 formatVersion)).drop 8 =
      toLe 4 formatVersion := by
    rw [← List.append_assoc, List.drop_left' hfront]
  have hversion : ofLe (toLe 4 formatVersion) = formatVersion := by decide
  have hbits : headerLen < 256 ^ 4 := by
    unfold maxHeaderSize at hlen
    omega
  have hsize : (toLe 4 headerLen ++ (magic ++ toLe 4 formatVersion)).length = footerSize := by
    rw [List.length_append, List.length_append, hfirst, hmagic, length_toLe]
    rfl
  unfold decodeFooter
  rw [hfooter, if_neg (not_not.mpr hsize), htake, List.drop_left' hfirst, if_neg (not_not.mpr rfl),
    hdrop, if_neg (not_not.mpr hversion), List.take_left' hfirst, ofLe_toLe hbits,
    if_neg (Nat.not_lt.mpr hlen)]

theorem length_encodeFooter (headerLen : ℕ) :
    (Prune.PackWriter.encodeFooter headerLen).length = footerSize := by
  have hmagic : magic.length = 4 := by decide
  change (toLe 4 headerLen ++ magic ++ toLe 4 1).length = _
  rw [List.length_append, List.length_append, length_toLe, length_toLe, hmagic]
  rfl

theorem map_read_plain (keys : Keys) (bytes : List UInt8) :
    (bytes.map StoredByte.plain).map keys.read = bytes := by
  rw [List.map_map]
  exact List.map_id bytes

theorem headerRange_encode (hlen : headerLen ≤ maxHeaderSize) :
    headerRange packId (Prune.PackWriter.encodeFooter headerLen)
      (dataLen + (headerLen + footerSize)) = pure (dataLen, headerLen) := by
  have hsub : dataLen + (headerLen + footerSize) - (footerSize + headerLen) = dataLen := by omega
  have hle : footerSize + headerLen ≤ dataLen + (headerLen + footerSize) := by omega
  unfold headerRange
  rw [decodeFooter_encode hlen, Metered.mapError_pure, Metered.pure_bind, if_pos hle, hsub]

theorem decodeHeader_ok (hlisted : Listable entries) (hends : ∀ e ∈ entries, e.end ≤ dataLen)
    (hopens : decryptBytes header (KeyKind.meta.context (headerAad packId)) =
      some (encodeEntries entries)) :
    (decodeHeader packId header dataLen).result = .ok entries := by
  have hfind : (entries.find? fun e => dataLen < e.end) = none := by
    rw [List.find?_eq_none]
    intro e he
    rw [decide_eq_true_iff]
    exact Nat.not_lt.mpr (hends e he)
  unfold decodeHeader
  simp only [Metered.bind_eq_ok, Prod.exists, openBytes_eq_ok, Metered.mapError_eq_ok,
    decodeEntries_eq_ok]
  refine ⟨_, hopens, entries, [], ⟨(List.append_nil _).symm, hlisted⟩, ?_⟩
  rw [if_neg (not_not.mpr rfl), hfind, Metered.result_pure]

theorem decodeHeader_other {plaintext : List UInt8} (hne : other ≠ packId)
    (hopens : decryptBytes header (KeyKind.meta.context (headerAad packId)) = some plaintext) :
    (decodeHeader other header dataLen).result =
      .error (.error (.decryption s!"pack {short other} header")) := by
  have hnone : decryptBytes header (KeyKind.meta.context (headerAad other)) = none := by
    rw [Option.eq_none_iff_forall_ne_some]
    intro opened hopened
    exact hne (headerAad_inj (context_inj (decryptBytes_unique hopened hopens)))
  unfold decodeHeader openBytes
  rw [hnone]
  rfl

end Headers

section Finished

variable {keys : Keys} {packId : ObjectId} {buf header data : List StoredByte} {getRange : GetRange}

theorem slice_last (front back : List StoredByte) :
    (Metered.slice (front ++ back) ((front ++ back).length - back.length) (front ++ back).length :
      Reading _) = pure back := by
  have h : (Metered.slice (front ++ (back ++ [])) front.length (front.length + back.length) :
      Reading _) = pure back := Metered.slice_middle front back [] rfl rfl
  rw [List.append_nil] at h
  rw [List.length_append, Nat.add_sub_cancel]
  exact h

theorem length_pack (buf header : List StoredByte) (headerLen : ℕ) :
    (buf ++ (header ++ (Prune.PackWriter.encodeFooter headerLen).map StoredByte.plain)).length =
      buf.length + (header.length + footerSize) := by
  rw [List.length_append, List.length_append, List.length_map, length_encodeFooter]

theorem parseHeader_eq (hlen : header.length ≤ maxHeaderSize) :
    parseHeader keys packId (buf ++ (header ++
      (Prune.PackWriter.encodeFooter header.length).map StoredByte.plain)) =
        decodeHeader packId header buf.length := by
  have hsize := length_pack buf header header.length
  have hfooter := slice_last (buf ++ header)
    ((Prune.PackWriter.encodeFooter header.length).map StoredByte.plain)
  rw [List.append_assoc, List.length_map, length_encodeFooter] at hfooter
  have hheader : (Metered.slice (buf ++ (header ++
      (Prune.PackWriter.encodeFooter header.length).map StoredByte.plain)) buf.length
        (buf.length + header.length) : Reading _) = pure header :=
    Metered.slice_middle _ _ _ rfl rfl
  have hshort : ¬ (buf ++ (header ++
      (Prune.PackWriter.encodeFooter header.length).map StoredByte.plain)).length < footerSize := by
    rw [hsize]
    omega
  unfold parseHeader
  rw [if_neg hshort, hfooter, Metered.pure_bind, map_read_plain, hsize, headerRange_encode hlen,
    Metered.pure_bind]
  dsimp only
  rw [hheader, Metered.pure_bind]

theorem loadHeaderSized_eq (hlen : header.length ≤ maxHeaderSize)
    (hdata : data = buf ++ (header ++ (Prune.PackWriter.encodeFooter header.length).map StoredByte.plain))
    (hrange : ∀ offset len, offset + len ≤ data.length →
      getRange offset len = .ok ((data.drop offset).take len)) :
    loadHeaderSized keys getRange packId data.length = decodeHeader packId header buf.length := by
  have hsize : data.length = buf.length + (header.length + footerSize) := by
    rw [hdata, length_pack]
  have htailSize : footerSize ≤ tailReadSize := by decide
  have hfetch : ∀ offset len, offset + len ≤ data.length →
      fetch getRange offset len = pure ((data.drop offset).take len) := by
    intro offset len hle
    unfold fetch
    rw [hrange offset len hle]
  generalize hread : min tailReadSize data.length = readLen
  have hreadLe : readLen ≤ data.length := hread ▸ Nat.min_le_right _ _
  have hreadFooter : footerSize ≤ readLen := by omega
  have htail : (data.drop (data.length - readLen)).take readLen =
      data.drop (data.length - readLen) := by
    rw [List.take_of_length_le]
    rw [List.length_drop]
    omega
  have htailLen : (data.drop (data.length - readLen)).length = readLen := by
    rw [List.length_drop]
    omega
  have hends : data.drop (data.length - readLen) =
      (buf ++ header).drop (data.length - readLen) ++
        (Prune.PackWriter.encodeFooter header.length).map StoredByte.plain := by
    rw [← List.drop_append_of_le_length (by rw [List.length_append]; omega), List.append_assoc,
      ← hdata]
  have hfooter := slice_last ((buf ++ header).drop (data.length - readLen))
    ((Prune.PackWriter.encodeFooter header.length).map StoredByte.plain)
  rw [← hends, htailLen, List.length_map, length_encodeFooter] at hfooter
  have hsource : (if data.length - readLen ≤ buf.length then
      Metered.slice (data.drop (data.length - readLen)) (buf.length - (data.length - readLen))
        (buf.length - (data.length - readLen) + header.length)
      else fetch getRange buf.length header.length : Reading (List StoredByte)) = pure header := by
    by_cases hwithin : data.length - readLen ≤ buf.length
    · have hwhole : data.drop (data.length - readLen) = buf.drop (data.length - readLen) ++
          (header ++ (Prune.PackWriter.encodeFooter header.length).map StoredByte.plain) := by
        rw [← List.drop_append_of_le_length hwithin, ← hdata]
      rw [if_pos hwithin, hwhole]
      exact Metered.slice_middle _ _ _ List.length_drop rfl
    · rw [if_neg hwithin, hfetch _ _ (by omega), hdata, List.drop_left, List.take_left]
  unfold loadHeaderSized
  rw [if_neg (by omega)]
  dsimp only
  rw [hread, hfetch _ _ (by omega), htail, Metered.pure_bind, if_neg (by omega), htailLen, hfooter,
    Metered.pure_bind, map_read_plain]
  have hspan : headerRange packId (Prune.PackWriter.encodeFooter header.length) data.length =
      pure (buf.length, header.length) := by
    rw [hsize]
    exact headerRange_encode hlen
  rw [hspan, Metered.pure_bind]
  dsimp only
  rw [hsource, Metered.pure_bind]

theorem finish_ok {w : Writer} (nonce : Nonce) (hne : w.entries ≠ [])
    (hfits : ciphertextLen (4 + w.entries.length * entrySize) ≤ maxHeaderSize) :
    ∃ header, header.length ≤ maxHeaderSize ∧
      decryptBytes header (KeyKind.meta.context (headerAad w.id)) = some (encodeEntries w.entries) ∧
      (w.finish nonce).result = .ok ⟨w.id, w.buf ++ (header ++
        (Prune.PackWriter.encodeFooter header.length).map StoredByte.plain), w.entries⟩ := by
  obtain ⟨header, hsealed, hlen, hopens⟩ := sealHeader_ok nonce w.id w.entries hfits
  refine ⟨header, hlen, hopens, ?_⟩
  unfold Writer.finish
  rw [if_neg hne, hsealed, Metered.pure_bind, if_pos hlen, Metered.result_pure]

theorem Laid.listable {keys : Keys} {zstd : Zstd} {held : ObjectId → List UInt8 → Prop} {w : Writer}
    (h : Laid keys zstd held w)
    (hfits : ciphertextLen (4 + w.entries.length * entrySize) ≤ maxHeaderSize) :
    Listable w.entries := by
  refine ⟨?_, h.fits⟩
  simp only [ciphertextLen, nonceSize, entrySize, maxHeaderSize] at hfits
  omega

theorem Op.Carries.id {keys : Keys} {zstd : Zstd} {op : Op} {plaintext : List UInt8}
    (hzstd : zstd.RoundTrips) (h : op.Carries keys zstd plaintext) :
    keys.blobId plaintext = op.id := by
  cases op with
  | add nonce blobType id given =>
      obtain ⟨rfl, rfl⟩ := h
      rfl
  | push blob =>
      obtain ⟨_, _, _, _, hid⟩ := Sealed.opens hzstd h
      exact hid

/-- A slice that is read as another blob, of another length, or expanded where it was stored as it
is, does not decode. -/
theorem decodeBlob_rejects {keys : Keys} {zstd : Zstd} {e e' : Entry} {bytes : List StoredByte}
    {plaintext : List UInt8} (h : (decodeBlob keys zstd e bytes).result = .ok plaintext)
    (hunforged : ∀ other, keys.blobId other = keys.blobId plaintext → other = plaintext)
    (hne : e'.blobType ≠ e.blobType ∨ e'.id ≠ e.id ∨ e'.plainLength ≠ e.plainLength ∨
      e'.compression ≠ e.compression ∧ zstd.decompress plaintext plaintext.length ≠ .ok plaintext) :
    ∃ error, (decodeBlob keys zstd e' bytes).result = .error (.error error) := by
  apply decodeBlob_within.error_of_not_ok
  intro other hother
  obtain ⟨rfl, hlength⟩ := decodeBlob_otherwise h hunforged hother
  obtain htype | hid | hplain | ⟨hcompression, hexpand⟩ := hne
  · exact decodeBlob_misnamed h (.inl htype) hother
  · exact decodeBlob_misnamed h (.inr hid) hother
  · exact hplain hlength
  · obtain ⟨_, stored, hstored, hout, _⟩ := decodeBlob_eq_ok.mp h
    obtain ⟨_, stored', hstored', hout', _⟩ := decodeBlob_eq_ok.mp hother
    have hsame : stored' = stored := by
      rw [decryptBytes_unique hstored' hstored] at hstored'
      exact Option.some.inj (hstored'.symm.trans hstored)
    subst hsame
    obtain ⟨hlen, hused⟩ := decompress_eq_ok.mp hout
    obtain ⟨hlen', hused'⟩ := decompress_eq_ok.mp hout'
    apply hexpand
    cases hfirst : e.compression with
    | none =>
        cases hsecond : e'.compression with
        | none => exact absurd (hsecond.trans hfirst.symm) hcompression
        | zstd =>
            rw [hfirst] at hused
            rw [hsecond] at hused'
            dsimp only at hused hused'
            rw [hlen']
            rw [hused] at hused'
            exact hused'
    | zstd =>
        cases hsecond : e'.compression with
        | zstd => exact absurd (hsecond.trans hfirst.symm) hcompression
        | none =>
            rw [hfirst] at hused
            rw [hsecond] at hused'
            dsimp only at hused hused'
            rw [hlen]
            rw [hused'] at hused
            exact hused

theorem Laid.pack {keys : Keys} {zstd : Zstd} {held : ObjectId → List UInt8 → Prop} {w : Writer}
    (h : Laid keys zstd held w) (nonce : Nonce) (hne : w.entries ≠ [])
    (hheader : ciphertextLen (4 + w.entries.length * entrySize) ≤ maxHeaderSize) :
    ∃ pack, (w.finish nonce).result = .ok pack ∧ pack.id = w.id ∧ pack.entries = w.entries ∧
      (parseHeader keys pack.id pack.data).result = .ok pack.entries ∧
      ∀ e ∈ pack.entries, e.end ≤ pack.data.length ∧ ∃ plaintext, held e.id plaintext ∧
        (decodeBlob keys zstd e (cut e pack.data)).result = .ok plaintext := by
  obtain ⟨header, hlen, hopens, hfinish⟩ := finish_ok nonce hne hheader
  refine ⟨_, hfinish, rfl, rfl, ?_, fun e he => ⟨?_, ?_⟩⟩
  · dsimp only
    rw [parseHeader_eq hlen]
    exact decodeHeader_ok (h.listable hheader) h.tiles.end_le hopens
  · dsimp only
    rw [length_pack]
    exact (h.tiles.end_le e he).trans (Nat.le_add_right _ _)
  · dsimp only
    rw [cut_append (h.tiles.end_le e he)]
    exact h.opens e he

end Finished

/-- What is written into a pack is read back from it, and nothing else is. -/
theorem pack_round_trip (keys : Keys) (zstd : Zstd) (id : ObjectId) (compression : Compression)
    (ops : List Op) (nonce : Nonce) (w : Writer) (hzstd : zstd.RoundTrips)
    (hunforged : ∀ op ∈ ops, ∀ plaintext, op.Carries keys zstd plaintext →
      ∀ other, keys.blobId other = keys.blobId plaintext → other = plaintext)
    (hcarries : ∀ op ∈ ops, ∃ plaintext, op.Carries keys zstd plaintext)
    (hrun : (runAll zstd ops (.new id compression)).result = .ok w) (hsize : w.buf.length < 2 ^ 32)
    (hne : ops ≠ []) (hheader : ciphertextLen (4 + w.entries.length * entrySize) ≤ maxHeaderSize) :
    ∃ pack, (w.finish nonce).result = .ok pack ∧ pack.id = id ∧ pack.entries = w.entries ∧
      (parseHeader keys pack.id pack.data).result = .ok pack.entries ∧
      (∀ other, other ≠ pack.id →
        ∃ error, (parseHeader keys other pack.data).result = .error (.error error)) ∧
      (∀ getRange : GetRange, (∀ offset len, offset + len ≤ pack.data.length →
          getRange offset len = .ok ((pack.data.drop offset).take len)) →
        (loadHeaderSized keys getRange pack.id pack.data.length).result = .ok pack.entries ∧
          ∀ other, other ≠ pack.id → ∃ error,
            (loadHeaderSized keys getRange other pack.data.length).result = .error (.error error)) ∧
      w.buf <+: pack.data ∧ Tiles 0 pack.entries w.buf.length ∧
      (∀ op ∈ ops, ∀ plaintext, op.Carries keys zstd plaintext → ∃ e ∈ pack.entries, e.id = op.id ∧
        (decodeBlob keys zstd e (cut e pack.data)).result = .ok plaintext) ∧
      ∀ e ∈ pack.entries, ∃ op ∈ ops, op.id = e.id ∧ ∃ plaintext,
        op.Carries keys zstd plaintext ∧
        (decodeBlob keys zstd e (cut e pack.data)).result = .ok plaintext ∧
        ∀ e' : Entry, e'.blobType ≠ e.blobType ∨ e'.id ≠ e.id ∨ e'.plainLength ≠ e.plainLength ∨
            e'.compression ≠ e.compression ∧
              zstd.decompress plaintext plaintext.length ≠ .ok plaintext →
          ∃ error, (decodeBlob keys zstd e' (cut e pack.data)).result = .error (.error error) := by
  have hheld : ∀ op ∈ ops, ∃ plaintext, op.Carries keys zstd plaintext ∧
      ∃ op' ∈ ops, op'.id = op.id ∧ op'.Carries keys zstd plaintext := by
    intro op hop
    obtain ⟨plaintext, hplaintext⟩ := hcarries op hop
    exact ⟨plaintext, hplaintext, op, hop, rfl, hplaintext⟩
  have hstart : Laid keys zstd (fun id plaintext => ∃ op' ∈ ops, op'.id = id ∧
      op'.Carries keys zstd plaintext) (.new id compression) := laid_new id compression
  obtain ⟨hlaid, hall⟩ := hstart.runAll hzstd hheld hrun hsize
  have hid : w.id = id := (runAll_grows hcarries hrun).1
  have hentries : w.entries ≠ [] := by
    obtain ⟨op, hop⟩ := List.exists_mem_of_ne_nil ops hne
    intro hnil
    have hmem := hall op hop
    rw [hnil] at hmem
    exact absurd hmem List.not_mem_nil
  have hlistable := hlaid.listable hheader
  obtain ⟨header, hlen, hopens, hfinish⟩ := finish_ok nonce hentries hheader
  have hread := decodeHeader_ok hlistable hlaid.tiles.end_le hopens
  have hcut : ∀ e ∈ w.entries, cut e (w.buf ++ (header ++
      (Prune.PackWriter.encodeFooter header.length).map StoredByte.plain)) = cut e w.buf :=
    fun e he => cut_append (hlaid.tiles.end_le e he)
  refine ⟨_, hfinish, hid, rfl, ?_, fun other hother => ?_, fun getRange hrange => ?_,
    List.prefix_append _ _, hlaid.tiles, ?_, ?_⟩
  · dsimp only
    rw [parseHeader_eq hlen]
    exact hread
  · dsimp only
    rw [parseHeader_eq hlen]
    exact ⟨_, decodeHeader_other hother hopens⟩
  · dsimp only
    refine ⟨?_, fun other hother => ?_⟩
    · rw [loadHeaderSized_eq hlen rfl hrange]
      exact hread
    · rw [loadHeaderSized_eq hlen rfl hrange]
      exact ⟨_, decodeHeader_other hother hopens⟩
  · intro op hop plaintext hplaintext
    obtain ⟨e, he, hsame⟩ := List.mem_map.mp (hall op hop)
    obtain ⟨found, _, hfound⟩ := hlaid.opens e he
    have hnamed := hplaintext.id hzstd
    obtain ⟨_, _, _, _, hblobId⟩ := decodeBlob_eq_ok.mp hfound
    have hequal := hunforged op hop plaintext hplaintext found (by rw [hblobId, hnamed, hsame])
    subst hequal
    refine ⟨e, he, hsame, ?_⟩
    dsimp only
    rw [hcut e he]
    exact hfound
  · intro e he
    obtain ⟨plaintext, ⟨op, hop, hsame, hplaintext⟩, hdecodes⟩ := hlaid.opens e he
    dsimp only
    rw [hcut e he]
    refine ⟨op, hop, hsame, plaintext, hplaintext, hdecodes, fun e' hother => ?_⟩
    exact decodeBlob_rejects hdecodes (hunforged op hop plaintext hplaintext) hother

def zeroNonce : Nonce := ⟨List.replicate nonceSize 0, List.length_replicate⟩

/-- Keys by which the empty blob has an id of its own. -/
def twoIds : Keys := ⟨fun plaintext => if plaintext = [] then 5 else 6, fun _ _ => 0⟩

def asIs : Zstd := ⟨.ok, fun bytes _ => .ok bytes⟩

section Whole

variable {w : Writer} {blob : SealedBlob} {zstd : Zstd} {nonce : Nonce} {blobType : BlobType}
  {id : ObjectId} {plaintext : List UInt8}

theorem push_appended (h : w.has blob.id = false)
    (hroom : w.buf.length + blob.sealedBytes.length % 2 ^ 32 < 2 ^ 32) :
    (w.push blob).result = .ok (true, { w with
      buf := w.buf ++ blob.sealedBytes
      entries := w.entries ++ [⟨blob.blobType, blob.compression, blob.id, w.buf.length,
        blob.sealedBytes.length % 2 ^ 32, blob.plainLength⟩] }) := by
  rw [Writer.push, if_neg (by rw [h]; exact Bool.false_ne_true), if_pos ⟨by omega, hroom⟩]
  rfl

def SealedBlob.whole (nonce : Nonce) (blobType : BlobType) (id : ObjectId)
    (plaintext : List UInt8) : SealedBlob :=
  ⟨blobType, .none, id, plaintext.length, nonce.bytes.map .plain ++ sealAll (chunkFrames nonce.bytes
    ((keyKind blobType).context (blobAad blobType id)) 0 plaintext)⟩

theorem seal_whole (hshort : plaintext.length < 2 ^ 32) :
    (SealedBlob.seal zstd nonce .none blobType id plaintext).result =
      .ok (.whole nonce blobType id plaintext) := by
  have hcount : frameCount plaintext.length ≤ counterMax + 1 := by
    unfold frameCount chunkSize counterMax
    omega
  rw [SealedBlob.seal, if_neg (by omega), compress, if_pos (.inl rfl)]
  change (do
    let sealedBytes ← sealBytes (keyKind blobType) nonce plaintext (blobAad blobType id)
    pure ⟨blobType, .none, id, plaintext.length, sealedBytes⟩ : Reading SealedBlob).result = _
  rw [sealBytes, encryptBytes_eq, if_pos hcount]
  rfl

theorem length_whole (hshort : plaintext.length < 2 ^ 32) :
    (SealedBlob.whole nonce blobType id plaintext).sealedBytes.length =
      ciphertextLen plaintext.length := by
  have hcount : frameCount plaintext.length ≤ counterMax + 1 := by
    unfold frameCount chunkSize counterMax
    omega
  have hbytes := encryptBytes_eq nonce.bytes ((keyKind blobType).context (blobAad blobType id))
    plaintext
  rw [if_pos hcount] at hbytes
  exact (encryptBytes_opens nonce.length_bytes hbytes).2

theorem add_whole (hnew : w.has id = false) (hnone : w.compression = .none)
    (hroom : w.buf.length + ciphertextLen plaintext.length < 2 ^ 32) :
    (w.add zstd nonce blobType id plaintext).result = .ok (true, { w with
      buf := w.buf ++ (SealedBlob.whole nonce blobType id plaintext).sealedBytes
      entries := w.entries ++ [⟨blobType, .none, id, w.buf.length, ciphertextLen plaintext.length,
        plaintext.length⟩] }) := by
  have hshort : plaintext.length < 2 ^ 32 := by
    unfold ciphertextLen at hroom
    dsimp only at hroom
    omega
  have hlength : (SealedBlob.whole nonce blobType id plaintext).sealedBytes.length =
      ciphertextLen plaintext.length := length_whole hshort
  have hmod : ciphertextLen plaintext.length % 2 ^ 32 = ciphertextLen plaintext.length :=
    Nat.mod_eq_of_lt (by omega)
  have hpushed := @push_appended w (.whole nonce blobType id plaintext) hnew
    (by rw [hlength, hmod]; exact hroom)
  rw [hlength, hmod] at hpushed
  have hsealed : (SealedBlob.seal zstd nonce w.compression blobType id plaintext).result =
      .ok (.whole nonce blobType id plaintext) := hnone ▸ seal_whole hshort
  rw [Writer.add, if_neg (by rw [hnew]; exact Bool.false_ne_true)]
  exact Metered.bind_eq_ok.mpr ⟨_, hsealed, hpushed⟩

end Whole

theorem asIs_roundTrips : asIs.RoundTrips := by
  intro plaintext compressed h
  cases h
  rfl

section Two

def twoBlobs (tree : List UInt8) : List Op :=
  [.add zeroNonce .data 7 [1, 2], .add zeroNonce .tree 8 tree]

def twoEntries (treeLen : ℕ) : List Entry :=
  [⟨.data, .none, 7, 0, 37, 2⟩, ⟨.tree, .none, 8, 37, ciphertextLen treeLen, treeLen⟩]

def threeIds (tree : List UInt8) : Keys :=
  ⟨fun plaintext => if plaintext = [1, 2] then 7 else if plaintext = tree then 8 else 6,
    fun _ _ => 0⟩

variable {tree plaintext : List UInt8}

theorem eq_of_seven (h : (threeIds tree).blobId plaintext = 7) : plaintext = [1, 2] := by
  change (if plaintext = [1, 2] then (7 : ObjectId) else if plaintext = tree then 8 else 6) = 7 at h
  split_ifs at h with hfirst hsecond
  · exact hfirst
  · exact absurd h (by decide)
  · exact absurd h (by decide)

theorem eq_of_eight (h : (threeIds tree).blobId plaintext = 8) : plaintext = tree := by
  change (if plaintext = [1, 2] then (7 : ObjectId) else if plaintext = tree then 8 else 6) = 8 at h
  split_ifs at h with hfirst hsecond
  · exact absurd h (by decide)
  · exact hsecond
  · exact absurd h (by decide)

theorem two_blobs_run (hlen : tree.length < 2 ^ 16) : ∃ w,
    (runAll asIs (twoBlobs tree) (.new 1 .none)).result = .ok w ∧ w.buf.length < 2 ^ 32 ∧
      w.id = 1 ∧ w.entries = twoEntries tree.length := by
  have hfirst := @add_whole (.new 1 .none) asIs zeroNonce .data 7 [1, 2] rfl rfl (by decide)
  have hlength := @length_whole zeroNonce .data 7 [1, 2] (by decide)
  have hvalue : ciphertextLen ([1, 2] : List UInt8).length = 37 := by decide
  rw [hvalue] at hlength hfirst
  generalize (SealedBlob.whole zeroNonce .data 7 [1, 2]).sealedBytes = bytes at hlength hfirst
  have hlength' := @length_whole zeroNonce .tree 8 tree (by omega)
  have hfits : 37 + ciphertextLen tree.length < 2 ^ 32 := by
    unfold ciphertextLen nonceSize tagSize chunkSize
    dsimp only
    omega
  have hsecond := @add_whole ⟨1, .none, bytes, [⟨.data, .none, 7, 0, 37, 2⟩]⟩ asIs zeroNonce .tree 8
    tree rfl rfl (by rw [hlength]; exact hfits)
  refine ⟨_, Metered.bind_eq_ok.mpr ⟨_, hfirst, Metered.bind_eq_ok.mpr ⟨_, hsecond, rfl⟩⟩, ?_, rfl, ?_⟩
  · dsimp only
    rw [List.length_append, hlength, hlength']
    exact hfits
  · dsimp only
    rw [hlength]
    rfl

theorem mem_twoBlobs {op : Op} : op ∈ twoBlobs tree ↔
    op = .add zeroNonce .data 7 [1, 2] ∨ op = .add zeroNonce .tree 8 tree := by
  simp [twoBlobs]

theorem two_blobs_carry (hne : tree ≠ [1, 2]) : ∀ op ∈ twoBlobs tree,
    ∃ plaintext, op.Carries (threeIds tree) asIs plaintext := by
  intro op hop
  obtain rfl | rfl := mem_twoBlobs.mp hop
  · exact ⟨[1, 2], by simp [threeIds], rfl⟩
  · exact ⟨tree, by simp [threeIds, hne], rfl⟩

theorem two_blobs_unforged : ∀ op ∈ twoBlobs tree, ∀ plaintext,
    op.Carries (threeIds tree) asIs plaintext →
      ∀ other, (threeIds tree).blobId other = (threeIds tree).blobId plaintext → other = plaintext := by
  intro op hop plaintext hplaintext other hother
  obtain rfl | rfl := mem_twoBlobs.mp hop
  · obtain ⟨hid, rfl⟩ := hplaintext
    exact eq_of_seven (hother.trans hid.symm)
  · obtain ⟨hid, rfl⟩ := hplaintext
    exact eq_of_eight (hother.trans hid.symm)

end Two

theorem pack_round_trip_two_blobs : ∃ w pack,
    (runAll asIs (twoBlobs [3]) (.new 1 .none)).result = .ok w ∧
      (w.finish zeroNonce).result = .ok pack ∧ pack.entries.length = 2 ∧
      (parseHeader (threeIds [3]) pack.id pack.data).result = .ok pack.entries ∧
      ∀ op ∈ twoBlobs [3], ∀ plaintext, op.Carries (threeIds [3]) asIs plaintext →
        ∃ e ∈ pack.entries, e.id = op.id ∧
          (decodeBlob (threeIds [3]) asIs e (cut e pack.data)).result = .ok plaintext := by
  obtain ⟨w, hrun, hsize, -, hentries⟩ := @two_blobs_run [3] (by decide)
  have htwo : w.entries.length = 2 := by
    rw [hentries]
    rfl
  obtain ⟨pack, hfinish, _, hsame, hparse, _, _, _, _, hreads, _⟩ := pack_round_trip (threeIds [3])
    asIs 1 .none (twoBlobs [3]) zeroNonce w asIs_roundTrips two_blobs_unforged
    (two_blobs_carry (by decide)) hrun hsize (List.cons_ne_nil _ _) (by rw [htwo]; decide)
  exact ⟨w, pack, hrun, hfinish, hsame ▸ htwo, hparse, hreads⟩

theorem empty_blob_runs : ∃ bytes : List StoredByte, bytes.length = 35 ∧
    (runAll asIs [.add zeroNonce .data 5 []] (.new 1 .none)).result =
      .ok ⟨1, .none, bytes, [⟨.data, .none, 5, 0, 35, 0⟩]⟩ ∧
    decryptBytes bytes (KeyKind.data.context (blobAad .data 5)) = some [] := by
  have hadded := @add_whole (.new 1 .none) asIs zeroNonce .data 5 [] rfl rfl (by decide)
  have hvalue : ciphertextLen ([] : List UInt8).length = 35 := by decide
  rw [hvalue] at hadded
  have hsealed := encryptBytes_eq zeroNonce.bytes (KeyKind.data.context (blobAad .data 5)) []
  rw [if_pos (by decide)] at hsealed
  obtain ⟨hopens, hlen⟩ := encryptBytes_opens zeroNonce.length_bytes hsealed
  exact ⟨_, hlen.trans hvalue, Metered.bind_eq_ok.mpr ⟨_, hadded, rfl⟩, hopens⟩

theorem one_entry_fits : ciphertextLen (4 + 1 * entrySize) ≤ maxHeaderSize := by decide

/-- No pack holds no blobs, and the empty blob, which is stored as it is, expands to itself. -/
theorem empty_packs_and_blobs :
    (∃ error, ((Writer.new 1 .none).finish zeroNonce).result = .error (.error error)) ∧
      ∃ w pack e, (runAll asIs [.add zeroNonce .data 5 []] (.new 1 .none)).result = .ok w ∧
        (w.finish zeroNonce).result = .ok pack ∧ pack.entries = [e] ∧ e.compression = .none ∧
        (decodeBlob twoIds asIs { e with compression := .zstd } (cut e pack.data)).result =
          .ok [] := by
  refine ⟨⟨_, rfl⟩, ?_⟩
  obtain ⟨bytes, hlen, hrun, hopens⟩ := empty_blob_runs
  obtain ⟨header, _, _, hfinish⟩ := @finish_ok ⟨1, .none, bytes, [⟨.data, .none, 5, 0, 35, 0⟩]⟩
    zeroNonce (List.cons_ne_nil _ _) one_entry_fits
  refine ⟨_, _, _, hrun, hfinish, rfl, rfl, ?_⟩
  have hcut : cut ⟨.data, .none, 5, 0, 35, 0⟩ (bytes ++ (header ++
      (Prune.PackWriter.encodeFooter header.length).map StoredByte.plain)) = bytes := by
    unfold cut
    dsimp only
    rw [List.drop_zero, List.take_left' hlen]
  dsimp only
  rw [hcut, decodeBlob_eq_ok]
  exact ⟨hlen, [], hopens, rfl, rfl⟩

end FileMirror.PackFormat
