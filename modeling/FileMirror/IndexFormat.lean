import FileMirror.ByteFields
import FileMirror.Metered
import FileMirror.Packs
import Mathlib.Algebra.Order.Group.Nat

set_option autoImplicit false

namespace FileMirror

def idSize : ℕ := 32

def formatVersion : ℕ := 1

def entryRoom : ℕ := 48

def packRoom : ℕ := 56

def ObjectId.bytes (id : ObjectId) : List UInt8 := (toLe idSize id.val).reverse

def ObjectId.fromSlice (bytes : List UInt8) : Metered BackupError ObjectId :=
  if bytes.length = idSize then pure (Fin.ofNat _ (ofLe bytes.reverse))
  else .fail (.invalid s!"an ID must be {idSize} bytes, got {bytes.length}")

def BlobType.byte : BlobType → UInt8
  | .data => 1
  | .tree => 2

def BlobType.fromByte (byte : UInt8) : Option BlobType :=
  if byte = 1 then some .data
  else if byte = 2 then some .tree
  else none

def Compression.byte : Compression → UInt8
  | .none => 0
  | .zstd => 1

def Compression.fromByte (byte : UInt8) : Option Compression :=
  if byte = 0 then some .none
  else if byte = 1 then some .zstd
  else .none

def Entry.encode (e : Entry) : List UInt8 :=
  e.blobType.byte :: e.compression.byte ::
    (e.id.bytes ++ (toLe 4 e.offset ++ (toLe 4 e.length ++ toLe 4 e.plainLength)))

def encodeEntries (entries : List Entry) : List UInt8 :=
  toLe 4 entries.length ++ entries.flatMap Entry.encode

def u32At (raw : List UInt8) (start : ℕ) : Metered BackupError ℕ := do
  let field ← Metered.slice raw start (start + 4)
  if field.length = 4 then pure (ofLe field) else Metered.panicked

def badList (message : String) : BackupError := .format s!"entry list: {message}"

def decodeEntry (i : ℕ) (raw : List UInt8) : Metered BackupError Entry := do
  let type ← Metered.get raw 0
  let blobType ← Metered.orFail (BlobType.fromByte type)
    (badList s!"entry {i} has unknown blob type {type.toNat}")
  let compressed ← Metered.get raw 1
  let compression ← Metered.orFail (Compression.fromByte compressed)
    (badList s!"entry {i} has unknown compression {compressed.toNat}")
  let idBytes ← Metered.slice raw 2 (2 + idSize)
  let id ← ObjectId.fromSlice idBytes
  let offset ← u32At raw 34
  let length ← u32At raw 38
  let plainLength ← u32At raw 42
  pure ⟨blobType, compression, id, offset, length, plainLength⟩

/-- `collect`: the list's room doubles when it is full. -/
def collectEntries : ℕ → ℕ → List (List UInt8) → Metered BackupError (List Entry)
  | _, _, [] => pure []
  | i, room, raw :: chunks => do
      let e ← decodeEntry i raw
      let more := if i = room then max 4 (2 * room) else room
      Metered.allocate (if i = room then entryRoom * more else 0)
      let entries ← collectEntries (i + 1) more chunks
      pure (e :: entries)

def splitFirst (n : ℕ) (data : List UInt8) : Option (List UInt8 × List UInt8) :=
  if n ≤ data.length then some (data.take n, data.drop n) else none

def checkedMul (m n : ℕ) : Option ℕ := if m * n < 2 ^ 64 then some (m * n) else none

def decodeEntries (data : List UInt8) : Metered BackupError (List Entry × List UInt8) := do
  let (count, rest) ← Metered.orFail (splitFirst 4 data) (badList s!"only {data.length} bytes")
  let bodyLen ← Metered.orFail
    ((checkedMul (ofLe count) entrySize).filter fun len => len ≤ rest.length)
    (badList s!"declares {ofLe count} entries but has {rest.length} bytes")
  let (body, rest) ← Metered.splitAt bodyLen rest
  let entries ← collectEntries 0 0 (chunksExact entrySize body)
  pure (entries, rest)

def PackEntries.encode (p : PackEntries) : List UInt8 := p.packId.bytes ++ encodeEntries p.entries

def encodeIndex (packs : List PackEntries) : List UInt8 :=
  toLe 4 formatVersion ++ (toLe 4 packs.length ++ packs.flatMap PackEntries.encode)

def badIndex (message : String) : BackupError := .format s!"index object: {message}"

/-- The loop of `decode`. -/
def decodePacks : ℕ → List UInt8 → Metered BackupError (List PackEntries × List UInt8)
  | 0, rest => pure ([], rest)
  | count + 1, rest => do
      let (idBytes, afterId) ← Metered.orFail (splitFirst idSize rest) (badIndex "truncated pack ID")
      let packId ← ObjectId.fromSlice idBytes
      let (entries, afterEntries) ← decodeEntries afterId
      let (packs, rest) ← decodePacks count afterEntries
      pure (⟨packId, entries⟩ :: packs, rest)

def decodeIndex (data : List UInt8) : Metered BackupError (List PackEntries) := do
  let (version, rest) ← Metered.orFail (splitFirst 4 data) (badIndex s!"only {data.length} bytes")
  if ofLe version ≠ formatVersion then
    Metered.fail (badIndex s!"format version {ofLe version}, this build understands {formatVersion}")
  else do
    let (count, rest) ← Metered.orFail (splitFirst 4 rest) (badIndex s!"only {data.length} bytes")
    let maxPacks := rest.length / (idSize + 4)
    if maxPacks < ofLe count then
      Metered.fail (badIndex s!"declares {ofLe count} packs but only has room for {maxPacks}")
    else do
      Metered.allocate (packRoom * ofLe count)
      let (packs, rest) ← decodePacks (ofLe count) rest
      if rest ≠ [] then Metered.fail (badIndex s!"{rest.length} trailing bytes") else pure packs

def Entry.Fits (e : Entry) : Prop :=
  e.offset < 2 ^ 32 ∧ e.length < 2 ^ 32 ∧ e.plainLength < 2 ^ 32

def Listable (entries : List Entry) : Prop := entries.length < 2 ^ 32 ∧ ∀ e ∈ entries, e.Fits

def Indexable (packs : List PackEntries) : Prop :=
  packs.length < 2 ^ 32 ∧ ∀ p ∈ packs, Listable p.entries

section Fields

variable {id : ObjectId} {e : Entry} {bytes raw front middle back : List UInt8} {i n : ℕ}

theorem ObjectId.length_bytes (id : ObjectId) : id.bytes.length = idSize := by
  rw [bytes, List.length_reverse, length_toLe]

theorem ObjectId.ofLe_bytes (id : ObjectId) : ofLe id.bytes.reverse = id.val := by
  have hlt : id.val < 256 ^ idSize := id.isLt
  rw [bytes, List.reverse_reverse, ofLe_toLe hlt]

theorem ObjectId.fromSlice_eq_ok : (fromSlice bytes).result = .ok id ↔ bytes = id.bytes := by
  unfold fromSlice
  by_cases hlen : bytes.length = idSize
  · have hlt : ofLe bytes.reverse < 2 ^ 256 := by
      have hbound : ofLe bytes.reverse < 256 ^ bytes.reverse.length := ofLe_lt
      rw [List.length_reverse, hlen] at hbound
      exact hbound
    rw [if_pos hlen, Metered.result_pure]
    constructor
    · intro h
      have hid : id = Fin.ofNat _ (ofLe bytes.reverse) := (Except.ok.inj h).symm
      have hval : id.val = ofLe bytes.reverse := by
        rw [hid, Fin.val_ofNat, Nat.mod_eq_of_lt hlt]
      have hbytes := toLe_ofLe bytes.reverse
      rw [List.length_reverse, hlen] at hbytes
      rw [ObjectId.bytes, hval, hbytes, List.reverse_reverse]
    · rintro rfl
      have hid : Fin.ofNat (2 ^ 256) (ofLe id.bytes.reverse) = id := by
        apply Fin.ext
        rw [Fin.val_ofNat, ofLe_bytes, Nat.mod_eq_of_lt id.isLt]
      rw [hid]
  · rw [if_neg hlen]
    apply iff_of_false nofun
    rintro rfl
    exact hlen (ObjectId.length_bytes id)

theorem ObjectId.fromSlice_within {left : ObjectId → ℕ} (h : ∀ id, left id ≤ n) :
    (fromSlice bytes).Within n left := by
  unfold fromSlice
  split_ifs
  · exact Metered.within_pure (h _)
  · exact Metered.within_fail

theorem BlobType.fromByte_eq_some {byte : UInt8} {blobType : BlobType} :
    fromByte byte = some blobType ↔ byte = blobType.byte := by
  unfold fromByte
  constructor
  · intro h
    split_ifs at h with hdata htree
    · cases h
      exact hdata
    · cases h
      exact htree
  · rintro rfl
    cases blobType <;> rfl

theorem Compression.fromByte_eq_some {byte : UInt8} {compression : Compression} :
    fromByte byte = some compression ↔ byte = compression.byte := by
  unfold fromByte
  constructor
  · intro h
    split_ifs at h with hnone hzstd
    · cases h
      exact hnone
    · cases h
      exact hzstd
  · rintro rfl
    cases compression <;> rfl

theorem u32At_middle (front middle back : List UInt8) (hfront : front.length = n)
    (hmiddle : middle.length = 4) :
    u32At (front ++ (middle ++ back)) n = pure (ofLe middle) := by
  unfold u32At
  rw [Metered.slice_middle front middle back hfront (by omega), Metered.pure_bind, if_pos hmiddle]

theorem Entry.length_encode (e : Entry) : e.encode.length = entrySize := by
  simp only [encode, List.length_cons, List.length_append, ObjectId.length_bytes, length_toLe]
  rfl

theorem exists_fields (hraw : raw.length = entrySize) :
    ∃ (type compressed : UInt8) (id offset length plainLength : List UInt8),
      raw = type :: compressed :: (id ++ (offset ++ (length ++ plainLength))) ∧
        id.length = idSize ∧ offset.length = 4 ∧ length.length = 4 ∧ plainLength.length = 4 := by
  cases raw with
  | nil => cases hraw
  | cons type raw =>
      cases raw with
      | nil => cases hraw
      | cons compressed raw =>
          have hlen : raw.length = 44 := by
            rw [List.length_cons, List.length_cons] at hraw
            unfold entrySize at hraw
            omega
          refine ⟨type, compressed, raw.take 32, (raw.drop 32).take 4, (raw.drop 36).take 4,
            raw.drop 40, ?_, ?_, ?_, ?_, ?_⟩
          · have hlast := List.take_append_drop 4 (raw.drop 36)
            have hnext := List.take_append_drop 4 (raw.drop 32)
            rw [List.drop_drop] at hlast hnext
            rw [hlast, hnext, List.take_append_drop]
          · rw [List.length_take, hlen]
            rfl
          · rw [List.length_take, List.length_drop, hlen]
            rfl
          · rw [List.length_take, List.length_drop, hlen]
            rfl
          · rw [List.length_drop, hlen]

theorem decodeEntry_fields {type compressed : UInt8} {idBytes offset length plainLength : List UInt8}
    (hid : idBytes.length = idSize) (hoffset : offset.length = 4) (hlength : length.length = 4)
    (hplain : plainLength.length = 4) :
    decodeEntry i (type :: compressed :: (idBytes ++ (offset ++ (length ++ plainLength)))) = (do
      let blobType ← Metered.orFail (BlobType.fromByte type)
        (badList s!"entry {i} has unknown blob type {type.toNat}")
      let compression ← Metered.orFail (Compression.fromByte compressed)
        (badList s!"entry {i} has unknown compression {compressed.toNat}")
      let id ← ObjectId.fromSlice idBytes
      pure ⟨blobType, compression, id, ofLe offset, ofLe length, ofLe plainLength⟩) := by
  have hslice : (Metered.slice (type :: compressed :: (idBytes ++ (offset ++ (length ++ plainLength))))
      2 (2 + idSize) : Metered BackupError _) = pure idBytes :=
    Metered.slice_middle [type, compressed] idBytes _ rfl (by rw [hid])
  have hfirst : u32At (type :: compressed :: (idBytes ++ (offset ++ (length ++ plainLength)))) 34 =
      pure (ofLe offset) := by
    have h := u32At_middle (type :: compressed :: idBytes) offset (length ++ plainLength)
      (n := 34) (by rw [List.length_cons, List.length_cons, hid]; rfl) hoffset
    exact h
  have hsecond : u32At (type :: compressed :: (idBytes ++ (offset ++ (length ++ plainLength)))) 38 =
      pure (ofLe length) := by
    have h := u32At_middle (type :: compressed :: (idBytes ++ offset)) length plainLength (n := 38)
      (by rw [List.length_cons, List.length_cons, List.length_append, hid, hoffset]; rfl) hlength
    rw [List.cons_append, List.cons_append, List.append_assoc] at h
    exact h
  have hthird : u32At (type :: compressed :: (idBytes ++ (offset ++ (length ++ plainLength)))) 42 =
      pure (ofLe plainLength) := by
    have h := u32At_middle (type :: compressed :: (idBytes ++ (offset ++ length))) plainLength []
      (n := 42) (by
        rw [List.length_cons, List.length_cons, List.length_append, List.length_append, hid, hoffset,
          hlength]
        rfl) hplain
    rw [List.cons_append, List.cons_append, List.append_nil, List.append_assoc,
      List.append_assoc] at h
    exact h
  unfold decodeEntry
  rw [hslice, hfirst, hsecond, hthird]
  change (pure type >>= fun type => _ : Metered BackupError Entry) = _
  simp only [Metered.pure_bind]
  congr 1
  funext blobType
  change (pure compressed >>= fun compressed => _ : Metered BackupError Entry) = _
  rw [Metered.pure_bind]

theorem decodeEntry_eq_ok (hraw : raw.length = entrySize) :
    (decodeEntry i raw).result = .ok e ↔ raw = e.encode ∧ e.Fits := by
  obtain ⟨type, compressed, idBytes, offset, length, plainLength, rfl, hid, hoffset, hlength, hplain⟩ :=
    exists_fields hraw
  rw [decodeEntry_fields hid hoffset hlength hplain]
  simp only [Metered.bind_eq_ok, Metered.orFail_eq_ok, BlobType.fromByte_eq_some,
    Compression.fromByte_eq_some, ObjectId.fromSlice_eq_ok, Metered.result_pure, Except.ok.injEq]
  have hfield : ∀ field : List UInt8, field.length = 4 →
      toLe 4 (ofLe field) = field ∧ ofLe field < 2 ^ 32 := by
    intro field hlen
    have hbytes := toLe_ofLe field
    have hlt : ofLe field < 256 ^ field.length := ofLe_lt
    rw [hlen] at hbytes hlt
    exact ⟨hbytes, hlt⟩
  constructor
  · rintro ⟨blobType, rfl, compression, rfl, id, rfl, rfl⟩
    refine ⟨?_, (hfield offset hoffset).2, (hfield length hlength).2, (hfield plainLength hplain).2⟩
    unfold Entry.encode
    dsimp only
    rw [(hfield offset hoffset).1, (hfield length hlength).1, (hfield plainLength hplain).1]
  · rintro ⟨hbytes, hfits⟩
    unfold Entry.encode at hbytes
    rw [List.cons_eq_cons, List.cons_eq_cons] at hbytes
    obtain ⟨rfl, rfl, hfields⟩ := hbytes
    obtain ⟨rfl, hnumbers⟩ := List.append_inj hfields (by rw [hid, ObjectId.length_bytes])
    obtain ⟨rfl, hlengths⟩ := List.append_inj hnumbers (by rw [hoffset, length_toLe])
    obtain ⟨rfl, rfl⟩ := List.append_inj hlengths (by rw [hlength, length_toLe])
    refine ⟨_, rfl, _, rfl, _, rfl, ?_⟩
    rw [ofLe_toLe hfits.1, ofLe_toLe hfits.2.1, ofLe_toLe hfits.2.2]

theorem decodeEntry_within (hraw : raw.length = entrySize) :
    (decodeEntry i raw).Within 0 fun _ => 0 := by
  obtain ⟨type, compressed, idBytes, offset, length, plainLength, rfl, hid, hoffset, hlength, hplain⟩ :=
    exists_fields hraw
  rw [decodeEntry_fields hid hoffset hlength hplain]
  apply Metered.Within.bind (Metered.within_orFail fun _ _ => le_rfl)
  intro blobType _
  apply Metered.Within.bind (Metered.within_orFail fun _ _ => le_rfl)
  intro compression _
  apply Metered.Within.bind (ObjectId.fromSlice_within fun _ => le_rfl)
  intro id _
  exact Metered.within_pure le_rfl

end Fields

section Lists

variable {data rest : List UInt8} {entries : List Entry} {packs : List PackEntries}
  {chunks : List (List UInt8)} {count i room : ℕ}

theorem collectEntries_eq_ok (hchunks : ∀ raw ∈ chunks, raw.length = entrySize) :
    (collectEntries i room chunks).result = .ok entries ↔
      chunks = entries.map Entry.encode ∧ ∀ e ∈ entries, e.Fits := by
  induction chunks generalizing i room entries with
  | nil =>
      unfold collectEntries
      rw [Metered.result_pure, Except.ok.injEq]
      constructor
      · rintro rfl
        exact ⟨rfl, nofun⟩
      · rintro ⟨hnil, _⟩
        exact (List.map_eq_nil_iff.mp hnil.symm).symm
  | cons raw chunks ih =>
      obtain ⟨hraw, hchunks⟩ := List.forall_mem_cons.mp hchunks
      unfold collectEntries
      simp only [Metered.bind_eq_ok, decodeEntry_eq_ok hraw, ih hchunks, Metered.result_pure,
        Except.ok.injEq]
      constructor
      · rintro ⟨e, ⟨rfl, he⟩, _, _, entries, ⟨rfl, hentries⟩, rfl⟩
        exact ⟨rfl, List.forall_mem_cons.mpr ⟨he, hentries⟩⟩
      · rintro ⟨hmap, hfits⟩
        cases entries with
        | nil => cases hmap
        | cons e entries =>
            obtain ⟨rfl, rfl⟩ := List.cons.inj hmap
            obtain ⟨he, hentries⟩ := List.forall_mem_cons.mp hfits
            exact ⟨e, ⟨rfl, he⟩, (), rfl, entries, ⟨rfl, hentries⟩, rfl⟩

def growth (i room more : ℕ) : ℕ := if i + more ≤ room then 0 else 4 * (i + more) - 2 * room

theorem growth_step :
    (if i = room then max 4 (2 * room) else 0) +
        growth (i + 1) (if i = room then max 4 (2 * room) else room) count ≤
      growth i room (count + 1) := by
  unfold growth
  split_ifs <;> omega

theorem collectEntries_within (hchunks : ∀ raw ∈ chunks, raw.length = entrySize) (hroom : i ≤ room) :
    (collectEntries i room chunks).Within (entryRoom * growth i room chunks.length) fun _ => 0 := by
  induction chunks generalizing i room with
  | nil => exact Metered.within_pure (Nat.zero_le _)
  | cons raw chunks ih =>
      obtain ⟨hraw, hchunks⟩ := List.forall_mem_cons.mp hchunks
      rw [List.length_cons]
      unfold collectEntries
      have hentry := (decodeEntry_within (i := i) hraw).frame
        (entryRoom * growth i room (chunks.length + 1))
      have hstep : (if i = room then max 4 (2 * room) else 0) +
          growth (i + 1) (if i = room then max 4 (2 * room) else room) chunks.length ≤
            growth i room (chunks.length + 1) := growth_step
      have hgrowth := Nat.mul_le_mul_left entryRoom hstep
      rw [Nat.zero_add] at hentry
      generalize hmore : (if i = room then max 4 (2 * room) else room) = more at hgrowth ⊢
      have hfull : i + 1 ≤ more := by
        rw [← hmore]
        split_ifs <;> omega
      have hgrown : (if i = room then entryRoom * more else 0) =
          entryRoom * if i = room then max 4 (2 * room) else 0 := by
        rw [← hmore]
        split_ifs <;> rfl
      rw [Nat.mul_add, ← hgrown] at hgrowth
      apply hentry.bind
      intro e _
      dsimp only
      have hallocate : (Metered.allocate (if i = room then entryRoom * more else 0) :
          Metered BackupError Unit).Within (entryRoom * growth i room (chunks.length + 1))
            fun _ => entryRoom * growth (i + 1) more chunks.length :=
        Metered.within_allocate hgrowth
      apply hallocate.bind
      intro _ _
      apply (ih hchunks hfull).bind
      intro entries _
      exact Metered.within_pure le_rfl

theorem splitFirst_eq_some {n : ℕ} {front : List UInt8} :
    splitFirst n data = some (front, rest) ↔ data = front ++ rest ∧ front.length = n := by
  unfold splitFirst
  constructor
  · intro h
    split_ifs at h with hlen
    cases h
    rw [List.take_append_drop, List.length_take]
    exact ⟨rfl, Nat.min_eq_left hlen⟩
  · rintro ⟨rfl, rfl⟩
    rw [if_pos (by rw [List.length_append]; omega), List.take_left, List.drop_left]

theorem length_flatMap_encode (entries : List Entry) :
    (entries.flatMap Entry.encode).length = entrySize * entries.length := by
  induction entries with
  | nil => rfl
  | cons e entries ih =>
      rw [List.flatMap_cons, List.length_append, ih, Entry.length_encode, List.length_cons,
        Nat.mul_succ, Nat.add_comm]

theorem chunksExact_length {body : List UInt8} (hbody : body.length = entrySize * count) :
    chunksExact entrySize body = pieces entrySize count body := by
  rw [chunksExact, hbody, Nat.mul_div_cancel_left count (by decide)]

theorem chunksExact_eq_map {body : List UInt8} (hbody : body.length = entrySize * count) :
    chunksExact entrySize body = entries.map Entry.encode ↔ body = entries.flatMap Entry.encode := by
  rw [chunksExact_length hbody]
  constructor
  · intro h
    rw [← pieces_flatten hbody, h, List.flatMap_def]
  · rintro rfl
    rw [length_flatMap_encode] at hbody
    have hcount : (entries.map Entry.encode).length = count := by
      rw [List.length_map]
      exact Nat.eq_of_mul_eq_mul_left (by decide) hbody
    have hparts : ∀ part ∈ entries.map Entry.encode, part.length = entrySize := by
      intro part hpart
      obtain ⟨e, _, rfl⟩ := List.mem_map.mp hpart
      exact e.length_encode
    rw [← hcount, List.flatMap_def, pieces_of_flatten hparts]

theorem bodyLen_eq_some {bodyLen : ℕ} (hcount : count < 2 ^ 32) :
    (checkedMul count entrySize).filter (fun len => len ≤ rest.length) = some bodyLen ↔
      bodyLen = entrySize * count ∧ bodyLen ≤ rest.length := by
  have hfits : count * entrySize < 2 ^ 64 := by
    unfold entrySize
    omega
  unfold checkedMul
  rw [if_pos hfits, Option.filter_eq_some_iff, Option.some.injEq, decide_eq_true_iff, Nat.mul_comm]
  exact and_congr_left fun _ => eq_comm

theorem length_of_mem_chunks {body : List UInt8} (hbody : body.length = entrySize * count) :
    ∀ raw ∈ chunksExact entrySize body, raw.length = entrySize := by
  rw [chunksExact_length hbody]
  exact length_of_mem_pieces hbody

theorem countOf_lt {field : List UInt8} (hfield : field.length = 4) : ofLe field < 2 ^ 32 := by
  have hlt : ofLe field < 256 ^ field.length := ofLe_lt
  rwa [hfield] at hlt

theorem decodeEntries_eq_ok : (decodeEntries data).result = .ok (entries, rest) ↔
    data = encodeEntries entries ++ rest ∧ Listable entries := by
  unfold decodeEntries
  simp only [Metered.bind_eq_ok, Metered.orFail_eq_ok, Prod.exists, splitFirst_eq_some]
  constructor
  · rintro ⟨field, following, ⟨rfl, hfield⟩, bodyLen, hlen, body, tail, hsplit, read, hread, hpure⟩
    obtain ⟨rfl, hle⟩ := (bodyLen_eq_some (countOf_lt hfield)).mp hlen
    rw [Metered.splitAt_of_le hle, Metered.result_pure] at hsplit
    cases hsplit
    cases hpure
    have hbody : (following.take (entrySize * ofLe field)).length = entrySize * ofLe field := by
      rw [List.length_take, Nat.min_eq_left hle]
    rw [collectEntries_eq_ok (length_of_mem_chunks hbody), chunksExact_eq_map hbody] at hread
    obtain ⟨hbytes, hfits⟩ := hread
    have hcount : entries.length = ofLe field := by
      rw [hbytes, length_flatMap_encode] at hbody
      exact Nat.eq_of_mul_eq_mul_left (by decide) hbody
    have hback := toLe_ofLe field
    rw [hfield] at hback
    refine ⟨?_, hcount ▸ countOf_lt hfield, hfits⟩
    rw [encodeEntries, hcount, hback, ← hbytes, List.append_assoc, List.take_append_drop]
  · rintro ⟨rfl, hcount, hfits⟩
    have hread : ofLe (toLe 4 entries.length) = entries.length := ofLe_toLe hcount
    have hbody := length_flatMap_encode entries
    have hle : entrySize * entries.length ≤ (entries.flatMap Entry.encode ++ rest).length := by
      rw [List.length_append, hbody]
      exact Nat.le_add_right _ _
    have hsplit : (Metered.splitAt (entrySize * entries.length)
        (entries.flatMap Entry.encode ++ rest) : Metered BackupError _) =
          pure (entries.flatMap Entry.encode, rest) := by
      rw [Metered.splitAt_of_le hle, ← hbody, List.take_left, List.drop_left]
    refine ⟨toLe 4 entries.length, _, ⟨by rw [encodeEntries, List.append_assoc], length_toLe⟩,
      entrySize * entries.length, ?_, entries.flatMap Entry.encode, rest, ?_, entries, ?_, rfl⟩
    · rw [hread]
      exact (bodyLen_eq_some hcount).mpr ⟨rfl, hle⟩
    · rw [hsplit, Metered.result_pure]
    · exact (collectEntries_eq_ok (length_of_mem_chunks hbody)).mpr
        ⟨(chunksExact_eq_map hbody).mpr rfl, hfits⟩

theorem splitFirst_length {n : ℕ} {split : List UInt8 × List UInt8}
    (h : splitFirst n data = some split) : data.length = n + split.2.length := by
  obtain ⟨hdata, hfront⟩ := splitFirst_eq_some.mp h
  rw [hdata, List.length_append, hfront]

theorem decodeEntries_within :
    (decodeEntries data).Within (5 * data.length) fun read => 5 * read.2.length := by
  unfold decodeEntries
  have hfirst : (Metered.orFail (splitFirst 4 data) (badList s!"only {data.length} bytes")).Within
      (5 * data.length) fun split => 5 * split.2.length := by
    apply Metered.within_orFail
    intro split hsplit
    have := splitFirst_length hsplit
    omega
  apply hfirst.bind
  rintro ⟨field, following⟩ hfield
  have hlen := (splitFirst_eq_some.mp (Metered.orFail_eq_ok.mp hfield)).2
  dsimp only
  have hbodyLen : (Metered.orFail
      ((checkedMul (ofLe field) entrySize).filter fun len => len ≤ following.length)
      (badList s!"declares {ofLe field} entries but has {following.length} bytes")).Within
        (5 * following.length) fun _ => 5 * following.length :=
    Metered.within_orFail fun _ _ => le_rfl
  apply hbodyLen.bind
  intro bodyLen hchecked
  obtain ⟨rfl, hle⟩ := (bodyLen_eq_some (countOf_lt hlen)).mp (Metered.orFail_eq_ok.mp hchecked)
  rw [Metered.splitAt_of_le hle, Metered.pure_bind]
  dsimp only
  have hbody : (following.take (entrySize * ofLe field)).length = entrySize * ofLe field := by
    rw [List.length_take, Nat.min_eq_left hle]
  have hchunks : (chunksExact entrySize (following.take (entrySize * ofLe field))).length =
      ofLe field := by
    rw [chunksExact_length hbody, length_pieces]
  have hcollect : (collectEntries 0 0 (chunksExact entrySize
      (following.take (entrySize * ofLe field)))).Within (entryRoom * growth 0 0 (ofLe field))
        fun _ => 0 := by
    have hread := @collectEntries_within _ 0 0 (length_of_mem_chunks hbody) le_rfl
    rwa [hchunks] at hread
  have hread := hcollect.frame (5 * (following.drop (entrySize * ofLe field)).length)
  have hroom : entryRoom * growth 0 0 (ofLe field) +
      5 * (following.drop (entrySize * ofLe field)).length ≤ 5 * following.length := by
    rw [List.length_drop]
    unfold entryRoom entrySize growth at *
    split_ifs <;> omega
  apply (hread.mono hroom).bind
  intro entries _
  apply Metered.within_pure
  rw [Nat.zero_add]

theorem decodePacks_eq_ok : (decodePacks count data).result = .ok (packs, rest) ↔
    data = packs.flatMap PackEntries.encode ++ rest ∧ packs.length = count ∧
      ∀ p ∈ packs, Listable p.entries := by
  induction count generalizing data packs rest with
  | zero =>
      unfold decodePacks
      rw [Metered.result_pure, Except.ok.injEq, Prod.mk.injEq]
      constructor
      · rintro ⟨rfl, rfl⟩
        exact ⟨rfl, rfl, nofun⟩
      · rintro ⟨hdata, hlen, _⟩
        rw [List.length_eq_zero_iff] at hlen
        subst hlen
        exact ⟨rfl, hdata⟩
  | succ count ih =>
      unfold decodePacks
      simp only [Metered.bind_eq_ok, Metered.orFail_eq_ok, Prod.exists, splitFirst_eq_some,
        ObjectId.fromSlice_eq_ok, decodeEntries_eq_ok, ih, Metered.result_pure, Except.ok.injEq,
        Prod.mk.injEq]
      constructor
      · rintro ⟨_, following, ⟨rfl, _⟩, packId, rfl, entries, after, ⟨rfl, hentries⟩, packs, _,
          ⟨rfl, rfl, hpacks⟩, rfl, rfl⟩
        refine ⟨?_, rfl, List.forall_mem_cons.mpr ⟨hentries, hpacks⟩⟩
        rw [List.flatMap_cons, PackEntries.encode]
        simp only [List.append_assoc]
      · rintro ⟨rfl, hlen, hpacks⟩
        cases packs with
        | nil => cases hlen
        | cons p packs =>
            obtain ⟨hp, hpacks⟩ := List.forall_mem_cons.mp hpacks
            refine ⟨p.packId.bytes, _, ⟨?_, ObjectId.length_bytes _⟩, p.packId, rfl, p.entries, _,
              ⟨rfl, hp⟩, packs, rest, ⟨rfl, Nat.succ.inj hlen, hpacks⟩, rfl, rfl⟩
            rw [List.flatMap_cons, PackEntries.encode]
            simp only [List.append_assoc]

theorem decodePacks_within :
    (decodePacks count data).Within (5 * data.length) fun read => 5 * read.2.length := by
  induction count generalizing data with
  | zero => exact Metered.within_pure le_rfl
  | succ count ih =>
      unfold decodePacks
      have hfirst : (Metered.orFail (splitFirst idSize data) (badIndex "truncated pack ID")).Within
          (5 * data.length) fun split => 5 * split.2.length := by
        apply Metered.within_orFail
        intro split hsplit
        have := splitFirst_length hsplit
        omega
      apply hfirst.bind
      rintro ⟨idBytes, afterId⟩ _
      have hid : (ObjectId.fromSlice idBytes).Within (5 * afterId.length) fun _ => 5 * afterId.length :=
        ObjectId.fromSlice_within fun _ => le_rfl
      apply hid.bind
      intro packId _
      apply decodeEntries_within.bind
      rintro ⟨entries, afterEntries⟩ _
      apply ih.bind
      rintro ⟨packs, rest⟩ _
      exact Metered.within_pure le_rfl

theorem length_encode_le (packs : List PackEntries) :
    (idSize + 4) * packs.length ≤ (packs.flatMap PackEntries.encode).length := by
  induction packs with
  | nil => exact Nat.zero_le _
  | cons p packs ih =>
      have hp : idSize + 4 ≤ p.encode.length := by
        rw [PackEntries.encode, encodeEntries, List.length_append, List.length_append,
          ObjectId.length_bytes, length_toLe]
        omega
      rw [List.flatMap_cons, List.length_append, List.length_cons, Nat.mul_succ]
      omega

theorem decodeIndex_eq_ok :
    (decodeIndex data).result = .ok packs ↔ data = encodeIndex packs ∧ Indexable packs := by
  unfold decodeIndex
  simp only [Metered.bind_eq_ok, Metered.orFail_eq_ok, Prod.exists, splitFirst_eq_some]
  constructor
  · rintro ⟨version, following, ⟨rfl, hversion⟩, hread⟩
    by_cases hformat : ofLe version = formatVersion
    · rw [if_neg (not_not.mpr hformat)] at hread
      simp only [Metered.bind_eq_ok, Metered.orFail_eq_ok, Prod.exists, splitFirst_eq_some] at hread
      obtain ⟨field, after, ⟨rfl, hfield⟩, hread⟩ := hread
      by_cases hroom : after.length / (idSize + 4) < ofLe field
      · rw [if_pos hroom] at hread
        cases hread
      · rw [if_neg hroom] at hread
        simp only [Metered.bind_eq_ok, Prod.exists, decodePacks_eq_ok] at hread
        obtain ⟨_, _, read, rest, ⟨rfl, hcount, hlists⟩, hend⟩ := hread
        by_cases hrest : rest = []
        · rw [if_neg (not_not.mpr hrest), Metered.result_pure] at hend
          cases hend
          have hbackVersion := toLe_ofLe version
          have hbackCount := toLe_ofLe field
          rw [hversion, hformat] at hbackVersion
          rw [hfield, ← hcount] at hbackCount
          refine ⟨?_, hcount ▸ countOf_lt hfield, hlists⟩
          rw [encodeIndex, hbackVersion, hbackCount, hrest, List.append_nil]
        · rw [if_pos hrest] at hend
          cases hend
    · rw [if_pos hformat] at hread
      cases hread
  · rintro ⟨rfl, hcount, hlists⟩
    have hversion : ofLe (toLe 4 formatVersion) = formatVersion := by decide
    have hread : ofLe (toLe 4 packs.length) = packs.length := ofLe_toLe hcount
    have hroom : ¬ (packs.flatMap PackEntries.encode).length / (idSize + 4) < packs.length := by
      rw [Nat.not_lt, Nat.le_div_iff_mul_le (by decide), Nat.mul_comm]
      exact length_encode_le packs
    refine ⟨toLe 4 formatVersion, _, ⟨rfl, length_toLe⟩, ?_⟩
    rw [if_neg (not_not.mpr hversion)]
    simp only [Metered.bind_eq_ok, Metered.orFail_eq_ok, Prod.exists, splitFirst_eq_some]
    refine ⟨toLe 4 packs.length, _, ⟨rfl, length_toLe⟩, ?_⟩
    rw [hread, if_neg hroom]
    simp only [Metered.bind_eq_ok, Prod.exists, decodePacks_eq_ok]
    refine ⟨(), rfl, packs, [], ⟨(List.append_nil _).symm, rfl, hlists⟩, ?_⟩
    rw [if_neg (not_not.mpr rfl), Metered.result_pure]

theorem decodeIndex_within : (decodeIndex data).Within (7 * data.length) fun _ => 0 := by
  unfold decodeIndex
  have hfirst : (Metered.orFail (splitFirst 4 data) (badIndex s!"only {data.length} bytes")).Within
      (7 * data.length) fun split => 7 * split.2.length := by
    apply Metered.within_orFail
    intro split hsplit
    have := splitFirst_length hsplit
    omega
  apply hfirst.bind
  rintro ⟨version, following⟩ _
  dsimp only
  by_cases hformat : ofLe version = formatVersion
  · rw [if_neg (not_not.mpr hformat)]
    have hnext : (Metered.orFail (splitFirst 4 following)
        (badIndex s!"only {data.length} bytes")).Within (7 * following.length)
          fun split => 7 * split.2.length := by
      apply Metered.within_orFail
      intro split hsplit
      have := splitFirst_length hsplit
      omega
    apply hnext.bind
    rintro ⟨field, after⟩ _
    dsimp only
    by_cases hroom : after.length / (idSize + 4) < ofLe field
    · rw [if_pos hroom]
      exact Metered.within_fail
    · rw [if_neg hroom]
      have hallocate : (Metered.allocate (packRoom * ofLe field) : Metered BackupError Unit).Within
          (7 * after.length) fun _ => 5 * after.length := by
        apply Metered.within_allocate
        rw [Nat.not_lt, Nat.le_div_iff_mul_le (by decide)] at hroom
        unfold packRoom idSize at *
        omega
      apply hallocate.bind
      intro _ _
      apply decodePacks_within.bind
      rintro ⟨read, rest⟩ _
      dsimp only
      split_ifs
      · exact Metered.within_fail
      · exact Metered.within_pure (Nat.zero_le _)
  · rw [if_pos hformat]
    exact Metered.within_fail

end Lists

/-- What `decode` makes of what `encode` writes, and of everything else: an error, no panic, and never
more than seven times the input in memory. -/
theorem index_codec :
    (∀ packs, Indexable packs → (decodeIndex (encodeIndex packs)).result = .ok packs) ∧
      (∀ data packs, (decodeIndex data).result = .ok packs →
        Indexable packs ∧ encodeIndex packs = data) ∧
      ∀ data, ((∀ packs, Indexable packs → encodeIndex packs ≠ data) →
          ∃ e, (decodeIndex data).result = .error (.error e)) ∧
        (decodeIndex data).result ≠ .error .panicked ∧
        (decodeIndex data).allocated ≤ 7 * data.length := by
  refine ⟨fun packs hpacks => decodeIndex_eq_ok.mpr ⟨rfl, hpacks⟩, ?_, ?_⟩
  · intro data packs hread
    obtain ⟨hdata, hpacks⟩ := decodeIndex_eq_ok.mp hread
    exact ⟨hpacks, hdata.symm⟩
  · intro data
    have hwithin : (decodeIndex data).Within (7 * data.length) fun _ => 0 := decodeIndex_within
    refine ⟨fun hother => hwithin.error_of_not_ok ?_, hwithin.unbroken, ?_⟩
    · intro packs hread
      obtain ⟨hdata, hpacks⟩ := decodeIndex_eq_ok.mp hread
      exact hother packs hpacks hdata.symm
    · cases hresult : (decodeIndex data).result with
      | ok packs => exact Nat.le_trans (Nat.le_add_right _ _) (hwithin.returned packs hresult)
      | error e => exact hwithin.failed e hresult

theorem index_codec_one :
    (decodeIndex (encodeIndex [⟨1, [⟨.tree, .zstd, 2, 0, 40, 5⟩]⟩])).result =
      .ok [⟨1, [⟨.tree, .zstd, 2, 0, 40, 5⟩]⟩] := by
  apply index_codec.1
  refine ⟨by decide, ?_⟩
  rw [List.forall_mem_singleton]
  refine ⟨by decide, ?_⟩
  rw [List.forall_mem_singleton]
  exact ⟨by decide, by decide, by decide⟩

end FileMirror
