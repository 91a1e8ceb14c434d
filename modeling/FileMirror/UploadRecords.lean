import FileMirror.Transitions
import FileMirror.Uploading
import Mathlib.Logic.Function.Basic

set_option autoImplicit false

namespace FileMirror

open Transitions

structure Transfer where
  path : String
  uploadId : String
  partNumber : ℤ
  deriving DecidableEq

def DeviceState.pendingUploads (s : DeviceState) : List PendingUpload :=
  s.uploads.toList.map Prod.snd

/-- `pending` is what the pass under way has read, `since` what was recorded for a path since an
upload of it was last started, each part with the upload that was sent. -/
structure UploadCalls where
  device : DeviceState
  pending : List PendingUpload
  sending : List Transfer
  since : String → List (String × CompletedUploadPart)

inductive UploadCall where
  | read
  | start (path uploadId : String) (size : ℕ) (contentHash : ContentHash) (nonce : List UInt8)
  | resume (row : PendingUpload)
  | part (t : Transfer) (etag checksumSha256 : String)
  | clear (t : Transfer)
  | drop (row : PendingUpload)
  | stop (t : Transfer)

def Latest (history : List CompletedUploadPart) (part : CompletedUploadPart) : Prop :=
  ∃ before after, history = before ++ part :: after ∧
    ∀ other ∈ after, other.partNumber ≠ part.partNumber

/-- The row has exactly the parts that were recorded since, and they are of its own upload. -/
structure PendingUpload.Owns (row : PendingUpload)
    (since : List (String × CompletedUploadPart)) : Prop where
  exact : ∀ part, part ∈ row.completedParts ↔ Latest (since.map Prod.snd) part
  ordered : row.completedParts.Pairwise fun a b => a.partNumber < b.partNumber
  own : ∀ record ∈ since, record.1 = row.uploadId

namespace UploadCalls

def recordPart (s : UploadCalls) (t : Transfer) (part : CompletedUploadPart) : UploadCalls :=
  if s.device.uploads[t.path]?.isSome then
    { s with
      device := s.device.recordUploadPart t.path part
      sending := { t with partNumber := t.partNumber + 1 } :: s.sending.erase t
      since := Function.update s.since t.path (s.since t.path ++ [(t.uploadId, part)]) }
  else s

def step (s : UploadCalls) : UploadCall → Option UploadCalls
  | .read => some { s with pending := s.device.pendingUploads }
  | .start path uploadId size contentHash nonce =>
      if size ≤ maxSingleShotPutSize then none
      else some { s with
        device := s.device.recordUploadStart path uploadId (getChunkSize size) contentHash nonce
        sending := ⟨path, uploadId, 1⟩ :: s.sending
        since := Function.update s.since path [] }
  | .resume row =>
      if row ∈ s.pending then
        some { s with
          sending := ⟨row.path, row.uploadId, nextPartNumber row.completedParts⟩ :: s.sending }
      else none
  | .part t etag checksumSha256 =>
      if t ∈ s.sending then some (s.recordPart t ⟨t.partNumber, etag, checksumSha256⟩) else none
  | .clear t =>
      if t ∈ s.sending then
        some { s with device := s.device.clearUpload t.path, sending := s.sending.erase t }
      else none
  | .drop row =>
      if row ∈ s.pending then some { s with device := s.device.clearUpload row.path } else none
  | .stop t => if t ∈ s.sending then some { s with sending := s.sending.erase t } else none

/-- Every pending upload has the parts of that upload. -/
def Owned (s : UploadCalls) : Prop :=
  ∀ (path : String) (row : PendingUpload), s.device.uploads[path]? = some row →
    row.Owns (s.since path)

end UploadCalls

/-- An upload starts where none is pending with parts, and a part is recorded under the row of its
own upload. -/
def Current (s : UploadCalls) : UploadCall → Prop
  | .start path _ _ _ _ => ∀ row, s.device.uploads[path]? = some row → row.completedParts = []
  | .part t _ _ => ∀ row, s.device.uploads[t.path]? = some row → row.uploadId = t.uploadId
  | _ => True

section Parts

variable {part other : CompletedUploadPart} {parts history : List CompletedUploadPart}

theorem latest_nil : ¬ Latest [] part := by
  rintro ⟨before, after, h, -⟩
  exact List.append_ne_nil_of_right_ne_nil before (List.cons_ne_nil part after) h.symm

theorem latest_concat : Latest (history ++ [part]) other ↔
    other = part ∨ Latest history other ∧ other.partNumber ≠ part.partNumber := by
  constructor
  · rintro ⟨before, after, h, hafter⟩
    rcases List.eq_nil_or_concat after with rfl | ⟨rest, last, rfl⟩
    · obtain ⟨-, hsame⟩ := List.append_inj' h rfl
      cases hsame
      exact .inl rfl
    · right
      rw [List.concat_eq_append, ← List.cons_append, ← List.append_assoc] at h
      obtain ⟨hhistory, hsame⟩ := List.append_inj' h rfl
      cases hsame
      rw [List.concat_eq_append, List.forall_mem_append, List.forall_mem_singleton] at hafter
      exact ⟨⟨before, rest, hhistory, hafter.1⟩, hafter.2.symm⟩
  · rintro (rfl | ⟨⟨before, after, rfl, hafter⟩, hne⟩)
    · exact ⟨history, [], rfl, List.forall_mem_nil _⟩
    · refine ⟨before, after ++ [part], ?_, ?_⟩
      · rw [List.append_assoc, List.cons_append]
      · rw [List.forall_mem_append, List.forall_mem_singleton]
        exact ⟨hafter, hne.symm⟩

theorem mem_insertPart (h : parts.Pairwise fun a b => a.partNumber < b.partNumber) :
    other ∈ insertPart part parts ↔
      other = part ∨ other ∈ parts ∧ other.partNumber ≠ part.partNumber := by
  induction parts with
  | nil => simp only [insertPart, List.mem_singleton, List.not_mem_nil, false_and, or_false]
  | cons first parts ih =>
      obtain ⟨hfirst, hrest⟩ := List.pairwise_cons.mp h
      unfold insertPart
      split_ifs with heq hlt
      · -- the row of this number is replaced, and those after it have greater numbers
        have hother : other ∈ parts → other.partNumber ≠ part.partNumber := fun hmem => by
          have hgt := hfirst other hmem
          omega
        rw [List.mem_cons, List.mem_cons, or_and_right]
        refine or_congr_right ⟨fun hmem => .inr ⟨hmem, hother hmem⟩, ?_⟩
        rintro (⟨rfl, hne⟩ | ⟨hmem, -⟩)
        · exact absurd heq hne
        · exact hmem
      · have hother : other ∈ first :: parts → other.partNumber ≠ part.partNumber := fun hmem => by
          rcases List.mem_cons.mp hmem with rfl | hmem
          · omega
          · have hgt := hfirst other hmem
            omega
        rw [List.mem_cons]
        exact or_congr_right ⟨fun hmem => ⟨hmem, hother hmem⟩, And.left⟩
      · rw [List.mem_cons, ih hrest, List.mem_cons, or_and_right, or_left_comm]
        refine or_congr_right (or_congr_left ⟨?_, And.left⟩)
        rintro rfl
        exact ⟨rfl, heq⟩

theorem insertPart_ordered (h : parts.Pairwise fun a b => a.partNumber < b.partNumber) :
    (insertPart part parts).Pairwise fun a b => a.partNumber < b.partNumber := by
  induction parts with
  | nil => exact List.pairwise_singleton _ _
  | cons first parts ih =>
      obtain ⟨hfirst, hrest⟩ := List.pairwise_cons.mp h
      unfold insertPart
      split_ifs with heq hlt
      · rw [heq] at hfirst
        exact List.pairwise_cons.mpr ⟨hfirst, hrest⟩
      · refine List.pairwise_cons.mpr ⟨fun other hmem => ?_, h⟩
        rcases List.mem_cons.mp hmem with rfl | hmem
        · exact hlt
        · exact hlt.trans (hfirst other hmem)
      · refine List.pairwise_cons.mpr ⟨fun other hmem => ?_, ih hrest⟩
        rcases (mem_insertPart hrest).mp hmem with rfl | ⟨hmem, -⟩
        · omega
        · exact hfirst other hmem

end Parts

section Rows

variable {s t : UploadCalls} {path : String} {row : PendingUpload} {call : UploadCall}
  {part : CompletedUploadPart}

theorem PendingUpload.Owns.insert {since : List (String × CompletedUploadPart)} {uploadId : String}
    (h : row.Owns since) (hown : row.uploadId = uploadId) :
    ({ row with completedParts := insertPart part row.completedParts } : PendingUpload).Owns
      (since ++ [(uploadId, part)]) := by
  constructor
  · intro other
    rw [List.map_append, List.map_singleton, latest_concat, mem_insertPart h.ordered, h.exact]
  · exact insertPart_ordered h.ordered
  · rw [List.forall_mem_append, List.forall_mem_singleton]
    exact ⟨h.own, hown.symm⟩

theorem PendingUpload.owns_nil : row.Owns [] ↔ row.completedParts = [] := by
  constructor
  · intro h
    refine List.eq_nil_iff_forall_not_mem.mpr fun part hpart => ?_
    exact latest_nil ((h.exact part).mp hpart)
  · intro h
    constructor
    · intro part
      rw [h]
      exact iff_of_false List.not_mem_nil latest_nil
    · rw [h]
      exact List.Pairwise.nil
    · exact List.forall_mem_nil _

theorem uploads_recordUploadStart (d : DeviceState) (path uploadId : String) (partSize : ℕ)
    (contentHash : ContentHash) (nonce : List UInt8) (other : String) :
    (d.recordUploadStart path uploadId partSize contentHash nonce).uploads[other]? =
      if path = other then
        some ⟨path, uploadId, min partSize i64Max, contentHash, nonce,
          d.uploads[path]?.elim [] PendingUpload.completedParts⟩
      else d.uploads[other]? :=
  StringMap.getElem?_insert

theorem uploads_recordUploadPart {d : DeviceState} (h : d.uploads[path]? = some row)
    (other : String) : (d.recordUploadPart path part).uploads[other]? =
      if path = other then
        some { row with completedParts := insertPart part row.completedParts }
      else d.uploads[other]? := by
  unfold DeviceState.recordUploadPart
  rw [h]
  exact StringMap.getElem?_insert

theorem uploads_clearUpload (d : DeviceState) (path other : String) :
    (d.clearUpload path).uploads[other]? = if path = other then none else d.uploads[other]? :=
  StringMap.getElem?_erase

namespace UploadCalls

theorem Owned.clear (hs : s.Owned) (path : String) {sending : List Transfer} :
    ({ s with device := s.device.clearUpload path, sending := sending } : UploadCalls).Owned := by
  intro other row hrow
  dsimp only at hrow ⊢
  rw [uploads_clearUpload] at hrow
  split_ifs at hrow
  exact hs other row hrow

theorem owned_start_iff (hs : s.Owned) {uploadId : String} {size : ℕ} {contentHash : ContentHash}
    {nonce : List UInt8} (h : s.step (.start path uploadId size contentHash nonce) = some t) :
    t.Owned ↔ ∀ row, s.device.uploads[path]? = some row → row.completedParts = [] := by
  have hparts : (∀ row, s.device.uploads[path]? = some row → row.completedParts = []) ↔
      s.device.uploads[path]?.elim [] PendingUpload.completedParts = [] := by
    cases s.device.uploads[path]? with
    | none => simp
    | some row => simp
  simp only [step] at h
  split_ifs at h with hsize
  cases h
  rw [hparts]
  constructor
  · intro ht
    have hown := ht path _ (by rw [uploads_recordUploadStart, if_pos rfl])
    dsimp only at hown
    rw [Function.update_self, PendingUpload.owns_nil] at hown
    exact hown
  · intro hnone other row hrow
    dsimp only at hrow ⊢
    rw [uploads_recordUploadStart] at hrow
    by_cases hpath : path = other
    · rw [if_pos hpath, Option.some_inj] at hrow
      rw [← hpath, Function.update_self, PendingUpload.owns_nil, ← hrow]
      exact hnone
    · rw [if_neg hpath] at hrow
      rw [Function.update_of_ne (Ne.symm hpath)]
      exact hs other row hrow

theorem owned_recordPart_iff (hs : s.Owned) (t : Transfer) : (s.recordPart t part).Owned ↔
    ∀ row, s.device.uploads[t.path]? = some row → row.uploadId = t.uploadId := by
  unfold recordPart
  cases hfound : s.device.uploads[t.path]? with
  | none => exact iff_of_true hs nofun
  | some row =>
      rw [Option.isSome_some, if_pos rfl]
      constructor
      · intro ht row' hrow'
        cases hrow'
        have hown := ht t.path _ (by rw [uploads_recordUploadPart hfound, if_pos rfl])
        dsimp only at hown
        rw [Function.update_self] at hown
        exact (hown.own _ (List.mem_append_right _ List.mem_cons_self)).symm
      · intro hsame other row' hrow'
        dsimp only at hrow' ⊢
        rw [uploads_recordUploadPart hfound] at hrow'
        by_cases hpath : t.path = other
        · rw [if_pos hpath, Option.some_inj] at hrow'
          rw [← hpath, Function.update_self, ← hrow']
          exact (hs t.path row hfound).insert (hsame row rfl)
        · rw [if_neg hpath] at hrow'
          rw [Function.update_of_ne (Ne.symm hpath)]
          exact hs other row' hrow'

theorem owned_step_iff (hs : s.Owned) (h : s.step call = some t) : t.Owned ↔ Current s call := by
  cases call with
  | read =>
      cases h
      exact iff_of_true hs trivial
  | start path uploadId size contentHash nonce => exact owned_start_iff hs h
  | resume row =>
      simp only [step] at h
      split_ifs at h
      cases h
      exact iff_of_true hs trivial
  | part sent etag checksumSha256 =>
      simp only [step] at h
      split_ifs at h
      cases h
      exact owned_recordPart_iff hs sent
  | clear sent =>
      simp only [step] at h
      split_ifs at h
      cases h
      exact iff_of_true (hs.clear sent.path) trivial
  | drop row =>
      simp only [step] at h
      split_ifs at h
      cases h
      exact iff_of_true (hs.clear row.path) trivial
  | stop sent =>
      simp only [step] at h
      split_ifs at h
      cases h
      exact iff_of_true hs trivial

end UploadCalls

/-- Transfers of a path do not overlap: none is under way when an upload starts, and what a pass has
read still stands when it is gone on with. -/
def OneAtATime (s : UploadCalls) : UploadCall → Prop
  | .start path uploadId size contentHash nonce =>
      Current s (.start path uploadId size contentHash nonce) ∧
        ∀ sent ∈ s.sending, sent.path ≠ path
  | .resume read => ∀ row, s.device.uploads[read.path]? = some row → row.uploadId = read.uploadId
  | _ => True

namespace UploadCalls

def Tracks (s : UploadCalls) : Prop :=
  ∀ sent ∈ s.sending, ∀ row, s.device.uploads[sent.path]? = some row →
    row.uploadId = sent.uploadId

theorem Tracks.fewer (hs : s.Tracks) {sending : List Transfer} {pending : List PendingUpload}
    (hsub : sending ⊆ s.sending) :
    ({ s with pending := pending, sending := sending } : UploadCalls).Tracks :=
  fun sent hsent => hs sent (hsub hsent)

theorem Tracks.clear (hs : s.Tracks) (path : String) {sending : List Transfer}
    (hsub : sending ⊆ s.sending) :
    ({ s with device := s.device.clearUpload path, sending := sending } : UploadCalls).Tracks := by
  intro sent hsent row hrow
  dsimp only at hrow
  rw [uploads_clearUpload] at hrow
  split_ifs at hrow
  exact hs sent (hsub hsent) row hrow

theorem Tracks.recordPart (hs : s.Tracks) {moved : Transfer} (hmoved : moved ∈ s.sending) :
    (s.recordPart moved part).Tracks := by
  unfold UploadCalls.recordPart
  cases hfound : s.device.uploads[moved.path]? with
  | none => exact hs
  | some row =>
      rw [Option.isSome_some, if_pos rfl]
      have hid : ∀ sent ∈ s.sending, ∀ row',
          (s.device.recordUploadPart moved.path part).uploads[sent.path]? = some row' →
            row'.uploadId = sent.uploadId := by
        intro sent hsent row' hrow'
        rw [uploads_recordUploadPart hfound] at hrow'
        split_ifs at hrow' with hpath
        · cases hrow'
          exact hs sent hsent row (hpath ▸ hfound)
        · exact hs sent hsent row' hrow'
      intro sent hsent row' hrow'
      rcases List.mem_cons.mp hsent with rfl | hsent
      · exact hid moved hmoved row' hrow'
      · exact hid sent (List.mem_of_mem_erase hsent) row' hrow'

theorem Tracks.step (hs : s.Tracks) (halone : OneAtATime s call) (h : s.step call = some t) :
    t.Tracks ∧ Current s call := by
  cases call with
  | read =>
      cases h
      exact ⟨hs, trivial⟩
  | start path uploadId size contentHash nonce =>
      simp only [UploadCalls.step] at h
      split_ifs at h
      cases h
      refine ⟨fun sent hsent row hrow => ?_, halone.1⟩
      dsimp only at hrow
      rw [uploads_recordUploadStart] at hrow
      rcases List.mem_cons.mp hsent with rfl | hsent
      · rw [if_pos rfl] at hrow
        cases hrow
        rfl
      · rw [if_neg (halone.2 sent hsent).symm] at hrow
        exact hs sent hsent row hrow
  | resume read =>
      simp only [UploadCalls.step] at h
      split_ifs at h
      cases h
      refine ⟨fun sent hsent row hrow => ?_, trivial⟩
      rcases List.mem_cons.mp hsent with rfl | hsent
      · exact halone row hrow
      · exact hs sent hsent row hrow
  | part sent etag checksumSha256 =>
      simp only [UploadCalls.step] at h
      split_ifs at h with hsent
      cases h
      exact ⟨hs.recordPart hsent, hs sent hsent⟩
  | clear sent =>
      simp only [UploadCalls.step] at h
      split_ifs at h
      cases h
      exact ⟨hs.clear sent.path List.erase_subset, trivial⟩
  | drop row =>
      simp only [UploadCalls.step] at h
      split_ifs at h
      cases h
      exact ⟨hs.clear row.path (List.Subset.refl _), trivial⟩
  | stop sent =>
      simp only [UploadCalls.step] at h
      split_ifs at h
      cases h
      exact ⟨hs.fewer List.erase_subset, trivial⟩

end UploadCalls

theorem current_of_one_at_a_time {calls : List UploadCall} (hs : s.Tracks)
    (hruns : Runs UploadCalls.step OneAtATime s calls t) : Runs UploadCalls.step Current s calls t := by
  induction hruns with
  | refl s => exact .refl s
  | next halone hstep _ ih =>
      obtain ⟨htracks, hcurrent⟩ := hs.step halone hstep
      exact .next hcurrent hstep (ih htracks)

/-- The parts of every pending upload are its own as long as uploads start where no parts are left
and record under their own rows; the first call that does not gives a row other parts. -/
theorem parts_of_own_upload {s t : UploadCalls} {calls : List UploadCall} (hs : s.Owned)
    (hruns : Runs UploadCalls.step Current s calls t) :
    t.Owned ∧ ∀ call u, t.step call = some u → (u.Owned ↔ Current t call) := by
  have ht : t.Owned := hruns.invariant hs fun u call v hu hcurrent hstep =>
    (UploadCalls.owned_step_iff hu hstep).mpr hcurrent
  exact ⟨ht, fun call u hstep => UploadCalls.owned_step_iff ht hstep⟩

def freshCalls : UploadCalls := ⟨⟨"laptop", "pc", ∅, ∅, 1, 0⟩, [], [], fun _ => []⟩

theorem freshCalls_owned : freshCalls.Owned := by
  intro path row hrow
  rw [show freshCalls.device.uploads[path]? = none from Std.ExtTreeMap.getElem?_empty] at hrow
  cases hrow

/-- An upload is interrupted after its first part, and the next pass takes it up. -/
def resumedCalls : List UploadCall :=
  [.start "a" "1" 10000000 10 [], .part ⟨"a", "1", 1⟩ "etag" "sum", .stop ⟨"a", "1", 2⟩, .read]

def repairedCalls : List UploadCall :=
  [.start "a" "1" 10000000 10 [], .part ⟨"a", "1", 1⟩ "etag" "sum", .stop ⟨"a", "1", 2⟩,
    .start "a" "2" 10000000 10 []]

theorem parts_of_own_upload_resumed :
    ∃ t, execute UploadCalls.step freshCalls resumedCalls = some t ∧ t.Owned := by
  have hruns : ∃ t, Runs UploadCalls.step Current freshCalls resumedCalls t ∧
      execute UploadCalls.step freshCalls resumedCalls = some t := by
    refine ⟨_, .next ?_ rfl (.next ?_ rfl (.next trivial rfl (.next trivial rfl (.refl _)))), rfl⟩
    · intro row hrow
      cases hrow
    · intro row hrow
      cases hrow
      rfl
  obtain ⟨t, hruns, ht⟩ := hruns
  exact ⟨t, ht, (parts_of_own_upload freshCalls_owned hruns).1⟩

/-- The repair's upload has the part of the upload that it replaced. -/
theorem parts_of_earlier_upload : ∃ t row,
    execute UploadCalls.step freshCalls repairedCalls = some t ∧
      t.device.uploads["a"]? = some row ∧ row.uploadId = "2" ∧
        row.completedParts = [⟨1, "etag", "sum"⟩] ∧ t.since "a" = [] ∧ ¬ t.Owned := by
  refine ⟨_, _, rfl, rfl, rfl, rfl, rfl, fun h => ?_⟩
  have hnone := PendingUpload.owns_nil.mp (h "a" _ rfl)
  cases hnone

end Rows

end FileMirror
