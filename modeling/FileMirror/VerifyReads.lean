import FileMirror.SeenWalks
import FileMirror.Verify

set_option autoImplicit false

namespace FileMirror

namespace Metered

variable {ε δ α β : Type} {x : Metered ε α} {f : α → Metered ε β}

def Unbroken (x : Metered ε α) : Prop := x.result ≠ .error .panicked

theorem Unbroken.bind (hx : x.Unbroken) (hf : ∀ a, x.result = .ok a → (f a).Unbroken) :
    (x >>= f).Unbroken := by
  unfold Unbroken at *
  cases h : x.result with
  | ok a =>
      rw [bind_of_ok h]
      exact hf a h
  | error e =>
      rw [bind_of_error h]
      intro hbroken
      cases hbroken
      exact hx h

theorem unbroken_pure (a : α) : (pure a : Metered ε α).Unbroken := by
  intro h
  cases h

theorem unbroken_fail (e : ε) : (fail e : Metered ε α).Unbroken := by
  intro h
  cases h

theorem unbroken_orFail {found : Option α} {e : ε} : (orFail found e).Unbroken := by
  cases found with
  | none => exact unbroken_fail e
  | some a => exact unbroken_pure a

theorem Unbroken.mapError {g : ε → δ} (h : x.Unbroken) : (x.mapError g).Unbroken := by
  unfold Unbroken Metered.mapError at *
  cases hx : x.result with
  | ok a => simp
  | error failure =>
      cases failure with
      | error e => simp
      | panicked => exact absurd hx h

theorem unbroken_slice {l : List α} {start stop : ℕ} (hle : start ≤ stop) (hstop : stop ≤ l.length) :
    (slice l start stop : Metered ε (List α)).Unbroken := by
  unfold slice
  rw [if_pos ⟨hle, hstop⟩]
  exact unbroken_pure _

theorem slice_eq_ok {l bytes : List α} {start stop : ℕ} :
    (slice l start stop : Metered ε (List α)).result = .ok bytes ↔
      start ≤ stop ∧ stop ≤ l.length ∧ bytes = (l.drop start).take (stop - start) := by
  unfold slice
  split_ifs with h
  · rw [result_pure, Except.ok.injEq, List.take_drop, Nat.add_sub_cancel' h.1]
    constructor
    · rintro rfl
      exact ⟨h.1, h.2, rfl⟩
    · rintro ⟨-, -, rfl⟩
      rfl
  · constructor
    · intro h
      cases h
    · rintro ⟨hle, hstop, -⟩
      exact absurd ⟨hle, hstop⟩ h

end Metered

namespace Verify

open PackFormat TreeFormat

section Headers

variable {keys : Keys} {packId : ObjectId} {footer : List UInt8} {data bytes : List StoredByte}
  {header : List Entry} {size dataLen start headerLen : ℕ}

theorem headerRange_unbroken : (headerRange packId footer size).Unbroken := by
  unfold headerRange format
  apply Metered.Unbroken.bind
  · apply Metered.Unbroken.mapError
    unfold decodeFooter
    split_ifs
    all_goals first
      | exact Metered.unbroken_fail _
      | exact Metered.unbroken_pure _
  · intro headerLen _
    split_ifs
    · exact Metered.unbroken_pure _
    · exact Metered.unbroken_fail _

theorem headerRange_within (h : (headerRange packId footer size).result = .ok (start, headerLen)) :
    start + headerLen ≤ size := by
  unfold headerRange format at h
  obtain ⟨len, -, h⟩ := Metered.bind_eq_ok.mp h
  split_ifs at h
  · cases h
    omega
  · cases h

theorem decodeHeader_unbroken : (decodeHeader packId bytes dataLen).Unbroken := by
  unfold decodeHeader format openBytes
  apply Metered.unbroken_orFail.bind
  intro plaintext _
  have hentries : (decodeEntries plaintext).Unbroken := decodeEntries_within.unbroken
  apply hentries.mapError.bind
  rintro ⟨entries, rest⟩ _
  dsimp only
  split_ifs
  · exact Metered.unbroken_fail _
  · cases entries.find? fun e => dataLen < e.end with
    | none => exact Metered.unbroken_pure _
    | some e => exact Metered.unbroken_fail _

theorem decodeHeader_ends (h : (decodeHeader packId bytes dataLen).result = .ok header) :
    ∀ e ∈ header, e.end ≤ dataLen := by
  unfold decodeHeader format at h
  obtain ⟨plaintext, -, h⟩ := Metered.bind_eq_ok.mp h
  obtain ⟨⟨entries, rest⟩, -, h⟩ := Metered.bind_eq_ok.mp h
  dsimp only at h
  split_ifs at h
  · cases h
  · cases hfind : entries.find? fun e => dataLen < e.end with
    | some e =>
        rw [hfind] at h
        cases h
    | none =>
        rw [hfind] at h
        cases h
        intro e he
        have hnot := List.find?_eq_none.mp hfind e he
        rw [decide_eq_true_iff] at hnot
        omega

theorem parseHeader_unbroken : (parseHeader keys packId data).Unbroken := by
  unfold parseHeader format
  split_ifs with hsize
  · exact Metered.unbroken_fail _
  · apply Metered.Unbroken.bind
    · exact Metered.unbroken_slice (Nat.sub_le _ _) le_rfl
    intro footer _
    apply headerRange_unbroken.bind
    rintro ⟨start, headerLen⟩ hrange
    have hwithin := headerRange_within hrange
    apply Metered.Unbroken.bind
    · exact Metered.unbroken_slice (Nat.le_add_right _ _) hwithin
    · exact fun sealedBytes _ => decodeHeader_unbroken

theorem parseHeader_ends (h : (parseHeader keys packId data).result = .ok header) :
    ∀ e ∈ header, e.end ≤ data.length := by
  unfold parseHeader format at h
  split_ifs at h
  · cases h
  · obtain ⟨footer, -, h⟩ := Metered.bind_eq_ok.mp h
    obtain ⟨⟨start, headerLen⟩, hrange, h⟩ := Metered.bind_eq_ok.mp h
    obtain ⟨sealedBytes, -, h⟩ := Metered.bind_eq_ok.mp h
    have hwithin := headerRange_within hrange
    intro e he
    have hend := decodeHeader_ends h e he
    omega

end Headers

section Blobs

variable {repo : Repository} {id packId : ObjectId} {offset len : ℕ} {plaintext : List UInt8}
  {bytes : List StoredByte} {tree : Tree} {l : Location}

def Decodes (repo : Repository) (e : Entry) (data : List StoredByte) (plaintext : List UInt8) : Prop :=
  (PackFormat.decodeBlob repo.keys repo.zstd e (cut e data)).result = .ok plaintext

theorem getRange_eq_ok : (repo.getRange packId offset len).result = .ok bytes ↔
    ∃ data, repo.packs[packId]? = some data ∧ offset + len ≤ data.length ∧
      bytes = (data.drop offset).take len := by
  unfold Repository.getRange
  cases hpack : repo.packs[packId]? with
  | none =>
      constructor
      · intro h
        cases h
      · rintro ⟨data, hdata, -⟩
        cases hdata
  | some data =>
      dsimp only
      split_ifs with hlen
      · constructor
        · intro h
          cases h
          exact ⟨data, rfl, hlen, rfl⟩
        · rintro ⟨_, ⟨⟩, -, rfl⟩
          rfl
      · constructor
        · intro h
          cases h
        · rintro ⟨_, ⟨⟩, hle, -⟩
          exact absurd hle hlen

theorem getRange_unbroken : (repo.getRange packId offset len).Unbroken := by
  unfold Repository.getRange
  cases repo.packs[packId]? with
  | none => exact Metered.unbroken_fail _
  | some data =>
      dsimp only
      split_ifs
      · exact Metered.unbroken_pure _
      · exact Metered.unbroken_fail _

theorem loadBlob_eq_ok : (repo.loadBlob id).result = .ok plaintext ↔
    ∃ l data, repo.index.lookup id = some l ∧ repo.packs[l.packId]? = some data ∧
      l.entry.end ≤ data.length ∧ Decodes repo l.entry data plaintext := by
  unfold Repository.loadBlob Decodes cut
  cases hlookup : repo.index.lookup id with
  | none =>
      constructor
      · intro h
        cases h
      · rintro ⟨l, data, hl, -⟩
        cases hl
  | some l =>
      simp only [Metered.bind_eq_ok, getRange_eq_ok, Metered.mapError_eq_ok]
      constructor
      · rintro ⟨_, ⟨data, hdata, hend, rfl⟩, hdecode⟩
        exact ⟨l, data, rfl, hdata, hend, hdecode⟩
      · rintro ⟨_, data, ⟨⟩, hdata, hend, hdecode⟩
        exact ⟨_, ⟨data, hdata, hend, rfl⟩, hdecode⟩

theorem loadBlob_unbroken : (repo.loadBlob id).Unbroken := by
  unfold Repository.loadBlob
  cases repo.index.lookup id with
  | none => exact Metered.unbroken_fail _
  | some l =>
      apply getRange_unbroken.bind
      intro bytes _
      exact Metered.Unbroken.mapError decodeBlob_within.unbroken

theorem treeBytes_cases (repo : Repository) (id : ObjectId) :
    (∃ cached, repo.cache[id]? = some cached ∧ repo.keys.blobId cached = id ∧
      repo.treeBytes id = pure cached) ∨ repo.treeBytes id = repo.loadBlob id := by
  unfold Repository.treeBytes
  cases hcache : repo.cache[id]? with
  | none => exact .inr rfl
  | some cached =>
      dsimp only
      split_ifs with hid
      · exact .inl ⟨cached, rfl, hid, rfl⟩
      · exact .inr rfl

theorem treeBytes_unbroken : (repo.treeBytes id).Unbroken := by
  obtain ⟨cached, -, -, hbytes⟩ | hbytes := treeBytes_cases repo id
  · rw [hbytes]
    exact Metered.unbroken_pure _
  · rw [hbytes]
    exact loadBlob_unbroken

theorem loadTree_eq_ok : (repo.loadTree id).result = .ok tree ↔
    ∃ plaintext, (repo.treeBytes id).result = .ok plaintext ∧
      Tree.decode repo.serde plaintext = .ok tree := by
  unfold Repository.loadTree
  rw [Metered.bind_eq_ok]
  apply exists_congr
  intro plaintext
  apply and_congr_right
  intro _
  cases Tree.decode repo.serde plaintext with
  | error e =>
      constructor
      · intro h
        cases h
      · intro h
        cases h
  | ok tree' => rw [Metered.result_pure, Except.ok.injEq, Except.ok.injEq]

theorem loadTree_unbroken : (repo.loadTree id).Unbroken := by
  unfold Repository.loadTree
  apply treeBytes_unbroken.bind
  intro plaintext _
  cases Tree.decode repo.serde plaintext with
  | error e => exact Metered.unbroken_fail _
  | ok tree => exact Metered.unbroken_pure _

theorem loadTree_canonical (h : (repo.loadTree id).result = .ok tree) : tree.Canonical := by
  obtain ⟨plaintext, -, hdecode⟩ := loadTree_eq_ok.mp h
  exact (decode_eq_ok.mp hdecode).2

theorem loadTree_known (h : (repo.loadTree id).result = .ok tree) :
    id ∈ repo.index.blobs.keys ++ repo.cache.keys := by
  obtain ⟨plaintext, hbytes, -⟩ := loadTree_eq_ok.mp h
  obtain ⟨cached, hcached, -, -⟩ | hblob := treeBytes_cases repo id
  · exact List.mem_append_right _ (Std.ExtTreeMap.mem_keys.mpr (IdMap.mem_of_getElem? hcached))
  · rw [hblob] at hbytes
    obtain ⟨l, -, hl, -⟩ := loadBlob_eq_ok.mp hbytes
    exact List.mem_append_left _ (Std.ExtTreeMap.mem_keys.mpr (IdMap.mem_of_getElem? hl))

end Blobs

end Verify

end FileMirror
