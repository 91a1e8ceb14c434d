import FileMirror.FileArchive

set_option autoImplicit false

namespace FileMirror

open Transitions

variable {Id : Type} {ids : ContentIds Id} {node old : Node Id} {bytes other : Bytes}
  {parent : ParentIndex Id} {w w' : ArchiveWorld Id}

theorem storeChunks_total (ids : ContentIds Id) (chunks : List Bytes) :
    (storeChunks ids chunks).total = chunks.flatten.length := by
  simp only [storeChunks, List.length_flatten]

/-- The bytes of the chunks have the hash and the length that the node records. -/
def Node.Truthful (ids : ContentIds Id) (node : Node Id) : Prop :=
  ∀ hash, node.contentHash = some hash →
    ∃ bytes, node.Restores ids bytes ∧ ids.blake3 bytes = hash ∧ bytes.length = node.size

theorem Node.Truthful.copy (h : old.Truthful ids) (hcontent : node.content = old.content)
    (hhash : node.contentHash = old.contentHash) (hsize : node.size = old.size) :
    node.Truthful ids := by
  intro hash hnode
  obtain ⟨bytes, hrestores, hblake, hlength⟩ := h hash (hhash ▸ hnode)
  exact ⟨bytes, (Node.Restores.congr hcontent).mpr hrestores, hblake, hlength.trans hsize.symm⟩

theorem Node.truthful_stored {chunks : List Bytes}
    (hcontent : node.content = (storeChunks ids chunks).content)
    (hhash : node.contentHash = some (storeChunks ids chunks).hash)
    (hsize : node.size = (storeChunks ids chunks).total) : node.Truthful ids := by
  intro hash hnode
  rw [hhash] at hnode
  cases hnode
  have htotal := storeChunks_total ids chunks
  exact ⟨chunks.flatten, ⟨chunks, hcontent, rfl⟩, rfl, by omega⟩

theorem sameContent_size (h : sameContent old node = true) : old.size = node.size := by
  simp only [sameContent, Bool.and_eq_true, beq_iff_eq] at h
  exact h.1.1.1.1.2

section Archived

variable {has : Id → Bool} {path real : String} {metadata : Metadata} {stub : StubMeta}
  {reading : Except String (List Bytes)} {archived : Archived Id}

abbrev ParentIndex.Truthful (ids : ContentIds Id) (parent : ParentIndex Id) : Prop :=
  parent.Holds fun file => file.2.Truthful ids

theorem archiveFile_truthful (hparent : parent.Truthful ids)
    (h : archiveFile ids parent path node reading = .ok archived) : archived.node.Truthful ids := by
  obtain ⟨-, ⟨old, hold, hsame, -, hnode⟩ | ⟨chunks, -, -, hnode⟩⟩ := archiveFile_ok h
  · have holdTruthful : old.Truthful ids := by
      cases hold with
      | inl hresumed => exact hparent.resumed path old hresumed
      | inr hbyPath => exact hparent.byPath path old hbyPath
    rw [hnode]
    exact holdTruthful.copy rfl rfl (sameContent_size hsame).symm
  · rw [hnode]
    exact Node.truthful_stored rfl rfl rfl

theorem ParentIndex.Truthful.reusable (hparent : parent.Truthful ids)
    (h : reusable parent has stub = some old) :
    ∃ bytes, old.Restores ids bytes ∧ ids.blake3 bytes = stub.hash.map Char.toLower ∧
      bytes.length = stub.size := by
  obtain ⟨hold, hkeep⟩ := Option.filter_eq_some_iff.mp h
  obtain ⟨hhash, path, htruthful⟩ := hparent.byHash _ old hold
  obtain ⟨bytes, hrestores, hblake, hlength⟩ := htruthful _ hhash
  have hsize : old.size = stub.size := by
    simp only [Bool.and_eq_true, beq_iff_eq] at hkeep
    exact hkeep.1
  exact ⟨bytes, hrestores, hblake, hlength.trans hsize⟩

theorem archiveOffloaded_truthful (hparent : parent.Truthful ids)
    (h : archiveOffloaded ids parent has path real metadata stub reading = .ok archived) :
    ∃ bytes, archived.node.Restores ids bytes ∧
      ids.blake3 bytes = stub.hash.map Char.toLower ∧ bytes.length = stub.size ∧
      archived.node.contentHash = some (stub.hash.map Char.toLower) ∧
      archived.node.size = stub.size := by
  obtain ⟨content, -, hnode, ⟨old, hold, hcontent, -⟩ | ⟨chunks, -, hcontent, hhash, htotal, -⟩⟩ :=
    archiveOffloaded_ok h
  · obtain ⟨bytes, hrestores, hblake, hlength⟩ := hparent.reusable hold
    have hsame : archived.node.content = old.content := by rw [hnode, ← hcontent]
    refine ⟨bytes, (Node.Restores.congr hsame).mpr hrestores, hblake, hlength, ?_, ?_⟩
    · rw [hnode]
      rfl
    · rw [hnode]
      rfl
  · have hchunks : archived.node.content = chunks.map ids.blobId := by
      rw [hnode]
      exact hcontent
    have hlength := storeChunks_total ids chunks
    refine ⟨chunks.flatten, ⟨chunks, hchunks, rfl⟩, hhash, by omega, ?_, ?_⟩
    · rw [hnode]
      rfl
    · rw [hnode]
      rfl

end Archived

namespace ArchiveWorld

abbrev Truthful (ids : ContentIds Id) (w : ArchiveWorld Id) : Prop :=
  w.Keeps fun file => file.2.Truthful ids

variable [DecidableEq Id]

theorem Truthful.step {a : ArchiveStep Id} (h : w.Truthful ids) (hstep : w.step ids a = some w') :
    w'.Truthful ids := by
  apply Keeps.step h hstep
  · intro path reading kept run node file _ hrun _ hok
    exact archiveFile_truthful (h.parent run hrun) hok
  · intro path real metadata stub has reading kept run file _ hrun hok hash hhash
    obtain ⟨bytes, hrestores, hblake, hlength, hrecorded, hsize⟩ :=
      archiveOffloaded_truthful (h.parent run hrun) hok
    rw [hrecorded] at hhash
    cases hhash
    exact ⟨bytes, hrestores, hblake, hlength.trans hsize.symm⟩

/-- However the backups go on, the hash that a saved file records is the one of the bytes it
restores to, and its size is their length; and a placeholder that takes the chunks of an earlier node
restores to the content it stands for. -/
theorem recorded_hashes_truthful {steps : List (ArchiveStep Id)}
    (hblob : Function.Injective ids.blobId) (hblake : Function.Injective ids.blake3)
    (hruns : Runs (ArchiveWorld.step ids) Unguarded empty steps w) :
    (∀ files ∈ w.snapshots, ∀ file ∈ files, ∀ hash, file.2.contentHash = some hash →
      (∃ bytes, file.2.Restores ids bytes) ∧
        ∀ bytes, file.2.Restores ids bytes →
          ids.blake3 bytes = hash ∧ bytes.length = file.2.size) ∧
      ∀ run, w.run = some run → ∀ has path real metadata stub reading archived,
        archiveOffloaded ids run.parent has path real metadata stub reading = .ok archived →
        archived.outcome = .offloadedReused →
        ∀ content, ids.blake3 content = stub.hash.map Char.toLower →
          archived.node.Restores ids content ∧
            ∀ bytes, archived.node.Restores ids bytes → bytes = content := by
  have htruthful : w.Truthful ids :=
    hruns.invariant empty_keeps fun _ _ _ h _ hstep => h.step hstep
  constructor
  · intro files hfiles file hfile hash hhash
    obtain ⟨bytes, hrestores, hrecorded, hlength⟩ :=
      htruthful.snapshots files hfiles file hfile hash hhash
    refine ⟨⟨bytes, hrestores⟩, ?_⟩
    intro other hother
    rw [hother.unique hblob hrestores]
    exact ⟨hrecorded, hlength⟩
  · intro run hrun has path real metadata stub reading archived hok _ content hcontent
    obtain ⟨bytes, hrestores, hrecorded, -⟩ := archiveOffloaded_truthful (htruthful.parent run hrun) hok
    have hsame : bytes = content := hblake (hrecorded.trans hcontent.symm)
    rw [hsame] at hrestores
    exact ⟨hrestores, fun _ hother => hother.unique hblob hrestores⟩

section Witness

def abc : Bytes := [97, 98, 99]

def abcHash : String := "6437b3ac38465133ffb63b75273a8db548c558465d79db03fd359c6cd5bd9d85"

/-- The hashes of `abc`, the keyed one under the key of bytes 0 to 31; other contents stand for
themselves. -/
def abcIds : ContentIds Bytes where
  blobId bytes :=
    if bytes = abc then
      [109, 165, 68, 149, 216, 21, 47, 43, 203, 168, 123, 215, 40, 45, 247, 9, 1, 205, 182, 107, 68,
        72, 237, 95, 76, 123, 210, 133, 43, 139, 85, 50]
    else 0 :: bytes
  blake3 bytes :=
    if bytes = abc then abcHash else String.ofList ('-' :: bytes.map fun byte => Char.ofNat byte.toNat)

theorem abcIds_blobId : Function.Injective abcIds.blobId := by
  intro a b h
  simp only [abcIds] at h
  split_ifs at h with ha hb hb
  · rw [ha, hb]
  · cases h
  · cases h
  · exact (List.cons.inj h).2

theorem charOfByte_injective : Function.Injective fun byte : UInt8 => Char.ofNat byte.toNat := by
  intro a b h
  have hsmall : ∀ n < 256, (Char.ofNat n).toNat = n := by decide +kernel
  have hnat : (Char.ofNat a.toNat).toNat = (Char.ofNat b.toNat).toNat := congrArg Char.toNat h
  rw [hsmall _ a.toNat_lt, hsmall _ b.toNat_lt] at hnat
  exact UInt8.toNat_inj.mp hnat

theorem abcIds_blake3 : Function.Injective abcIds.blake3 := by
  intro a b h
  simp only [abcIds] at h
  have hhash : abcHash = String.ofList abcHash.toList := by decide
  split_ifs at h with ha hb hb
  · rw [ha, hb]
  · rw [hhash] at h
    exact absurd (List.cons.inj (String.ofList_injective h)).1 (by decide)
  · rw [hhash] at h
    exact absurd (List.cons.inj (String.ofList_injective h)).1 (by decide)
  · have hchars := (List.cons.inj (String.ofList_injective h)).2
    exact List.map_injective_iff.mpr charOfByte_injective hchars

def abcMetadata : Metadata := ⟨33188, 1000, 1000, 3, 5000000000, 5000000000, 1, 7, 1⟩

/-- The placeholder that is left when `/d/a` is offloaded. -/
def abcStub : StubMeta := ⟨1, "a", 3, abcHash, "objects/a", 9, none, none⟩

def abcNode : Node Bytes :=
  { (Node.fromMetadata "a" abcMetadata : Node Bytes) with
    content := [abcIds.blobId abc]
    contentHash := some abcHash }

def abcSteps : List (ArchiveStep Bytes) :=
  [.begin [] [] [] fun _ => true, .stat "/d/a" "a" abcMetadata, .archive "/d/a" (.ok [abc]) true,
    .saveSnapshot [("/d/a", abcNode)] true,
    .begin [("/d/a", abcNode)] [("/d/a", abcNode)] [] fun _ => true]

theorem abcSteps_run : (execute (step abcIds) empty abcSteps).isSome := by decide +kernel

def abcNext : ArchiveWorld Bytes := (execute (step abcIds) empty abcSteps).get abcSteps_run

def abcParent : ParentIndex Bytes := (ParentIndex.load [("/d/a", abcNode)]).resume (fun _ => true) []

def abcReused : Archived Bytes where
  path := "/d/a"
  node := { offloadedTimes (offloadedNode "a" abcMetadata abcStub) abcStub (some abcNode) with
    content := abcNode.content }
  outcome := .offloadedReused

theorem recorded_hashes_truthful_abc :
    (∃ bytes, abcNode.Restores abcIds bytes) ∧ abcReused.node.Restores abcIds abc := by
  have hruns : Runs (step abcIds) Unguarded empty abcSteps abcNext :=
    execute_runs (Option.some_get _).symm
  have htheorem := recorded_hashes_truthful abcIds_blobId abcIds_blake3 hruns
  constructor
  · exact (htheorem.1 [("/d/a", abcNode)] (by decide +kernel) ("/d/a", abcNode)
      List.mem_cons_self abcHash rfl).1
  · have hrun : abcNext.run = some ⟨abcParent, [], []⟩ := by rfl
    have hreusable : reusable abcParent (fun _ => true) abcStub = some abcNode := by decide +kernel
    have hpath : withFileName "/d/a.rfm" "a" = "/d/a" := by decide +kernel
    have hreused : archiveOffloaded abcIds abcParent (fun _ => true) "/d/a.rfm" "a" abcMetadata abcStub
        (.error "") = .ok abcReused := by
      unfold archiveOffloaded
      simp only [hreusable, hpath]
      rfl
    exact (htheorem.2 _ hrun _ _ _ _ _ _ _ hreused rfl abc (by decide +kernel)).1

end Witness

end ArchiveWorld

end FileMirror
