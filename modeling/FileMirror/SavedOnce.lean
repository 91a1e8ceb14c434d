import FileMirror.Deliveries
import FileMirror.HeldBlobs

set_option autoImplicit false

namespace FileMirror

open Transitions Deliveries

namespace Call

def going : Call → List ObjectId
  | .uploading _ pack => pack.ids
  | _ => []

/-- A pack that has been put and is not in `new_packs` yet. -/
def hand : Call → Option Pack
  | .uploaded _ pack | .indexed _ pack => some pack
  | _ => none

/-- The blob that a `save_blob` call stores with the pack it uploads. -/
def claim : Call → Option ObjectId
  | .uploading (.saveBlob id _) _ | .uploaded (.saveBlob id _) _ | .indexed (.saveBlob id _) _ =>
      some id
  | _ => none

/-- The blob that a `save_blob` call is about. -/
def brings : Call → Option ObjectId
  | .looked p | .unsaved p => some p.id
  | .uploading (.saveBlob id _) _ | .uploaded (.saveBlob id _) _ | .indexed (.saveBlob id _) _ =>
      some id
  | _ => none

def Added : Call → Prop
  | .uploading (.saveBlob _ added) _ | .uploaded (.saveBlob _ added) _
  | .indexed (.saveBlob _ added) _ => added = true
  | _ => True

def Indexed (index : Index) : Call → Prop
  | .indexed _ pack => ∀ id ∈ pack.ids, index.has id = true
  | _ => True

def Bare : Call → Prop
  | .uploading _ _ | .uploaded _ _ | .indexed _ _ => False
  | _ => True

/-- A `flush` that has not taken the new packs yet has taken the open one at its start. -/
def Collects (writer : Option Writer) : Call → Prop
  | .flushing _ => True
  | .uploading (.flush _) _ | .uploaded (.flush _) _ | .indexed (.flush _) _ | .flushed _ =>
      writer = none
  | _ => False

def answers : Call → List (ObjectId × Bool)
  | .idle (some (.ok (.saved id added))) => [(id, added)]
  | _ => []

variable {call : Call}

theorem Bare.going (h : call.Bare) : call.going = [] := by
  cases call <;> first | rfl | cases h

theorem Bare.hand (h : call.Bare) : call.hand = none := by
  cases call <;> first | rfl | cases h

theorem Bare.claim (h : call.Bare) : call.claim = none := by
  cases call <;> first | rfl | cases h

theorem Bare.indexed (h : call.Bare) (index : Index) : call.Indexed index := by
  cases call <;> trivial

theorem Bare.added (h : call.Bare) : call.Added := by
  cases call <;> trivial

end Call

namespace BackupStep

variable {ι : Type*}

def caller : BackupStep ι → Option ι
  | .saveBlob i _ | .look i | .place i _ => some i
  | .putPack c _ | .addPack c | .settle c | .reportFailure c => c
  | _ => none

def puts (r : BackupRun ι) : BackupStep ι → List Pack
  | .putPack c .done =>
      match r.calls c with
      | .uploading _ pack => [pack]
      | _ => []
  | _ => []

def failed : BackupStep ι → Bool
  | .putPack _ (.failed _ _) | .putIndex _ (.failed _ _) => true
  | _ => false

/-- The sections of `save_blob` calls. -/
def saves : BackupStep ι → Bool
  | .saveBlob _ _ | .look _ | .place _ _ => true
  | .putPack c _ | .addPack c | .settle c => c.isSome
  | _ => false

/-- The sections of `flush` after its first. -/
def flushes : BackupStep ι → Bool
  | .takeOpen | .takeNew | .putIndex _ _ => true
  | .putPack c _ | .addPack c | .settle c => c.isNone
  | _ => false

/-- The sections up to the index object of a `flush`. -/
def gathers : BackupStep ι → Bool
  | .saveBlob _ _ | .look _ | .place _ _ | .putPack _ _ | .addPack _ | .settle _ => true
  | .flush | .takeOpen => true
  | _ => false

end BackupStep

/-- A run with the packs that it has uploaded and what its `save_blob` calls have returned. -/
structure SaveRun (ι : Type*) where
  run : BackupRun ι
  uploads : List Pack
  answers : List (ObjectId × Bool)

namespace SaveRun

variable {ι : Type*}

def step [DecidableEq ι] (s : SaveRun ι) (a : BackupStep ι) : Option (SaveRun ι) :=
  (s.run.step a).map fun t =>
    ⟨t, a.puts s.run ++ s.uploads, (t.calls a.caller).answers ++ s.answers⟩

def Succeeds [DecidableEq ι] (s : SaveRun ι) (a : BackupStep ι) : Prop :=
  a.failed = false ∧
    ∀ t, s.step a = some t → ∀ e, t.run.calls a.caller ≠ .idle (some (.error e))

def granted (s : SaveRun ι) : List ObjectId := (s.answers.filter Prod.snd).map Prod.fst

def waiting (s : SaveRun ι) : List ObjectId :=
  (s.run.repo.state.writer.map Writer.ids).getD []

def stored (s : SaveRun ι) : List ObjectId := s.uploads.flatMap Pack.ids

def Present (s : SaveRun ι) (id : ObjectId) : Prop :=
  id ∈ s.stored ∨ id ∈ s.waiting ∨ ∃ c, id ∈ (s.run.calls c).going

structure Once (r₀ : BackupRun ι) (s : SaveRun ι) : Prop where
  placed : Placed (fun id => r₀.repo.index.has id = true) s.stored s.waiting
    (fun c => (s.run.calls c).going) s.run.repo.state.inflight
    (fun id => s.run.repo.index.has id = true)
  granted : Credited s.Present (fun c => (s.run.calls c).claim) s.granted
  listed : ∃ settled : List Pack,
    s.run.repo.state.newPacks = r₀.repo.state.newPacks ++ settled.map Pack.listing ∧
      Credited (fun pack => pack ∈ s.uploads) (fun c => (s.run.calls c).hand) settled
  distinct : (s.uploads.map Pack.id).Nodup
  kept : ∀ pack ∈ s.uploads, s.run.store.packs[pack.id]? = some pack
  indexed : ∀ c, (s.run.calls c).Indexed s.run.repo.index
  added : ∀ c, (s.run.calls c).Added
  known : ∀ answer ∈ s.answers, r₀.repo.index.has answer.1 = true ∨ s.Present answer.1

/-- A handle with nothing open, in flight or failed: just opened, or after a flush. -/
structure Rests (s : SaveRun ι) : Prop where
  state : s.run.repo.state.writer = none ∧ s.run.repo.state.inflight = ∅
  calls : ∀ c, ∃ result, s.run.calls c = .idle result
  uploads : s.uploads = []
  answers : s.answers = []

theorem Rests.once {s : SaveRun ι} (h : s.Rests) : s.Once s.run := by
  have hgoing : ∀ c, (s.run.calls c).going = [] := by
    intro c
    obtain ⟨result, hc⟩ := h.calls c
    rw [hc]
    rfl
  have hhand : ∀ c, (s.run.calls c).hand = none := by
    intro c
    obtain ⟨result, hc⟩ := h.calls c
    rw [hc]
    rfl
  have hclaim : ∀ c, (s.run.calls c).claim = none := by
    intro c
    obtain ⟨result, hc⟩ := h.calls c
    rw [hc]
    rfl
  have hwaiting : s.waiting = [] := by
    unfold waiting
    rw [h.state.1]
    rfl
  have hstored : s.stored = [] := by
    unfold stored
    rw [h.uploads]
    rfl
  constructor
  · rw [hstored, hwaiting, h.state.2]
    simp only [hgoing]
    exact Placed.start
  · unfold granted
    simp only [hclaim, h.answers]
    apply Credited.start
    rintro id (hid | hid | ⟨c, hid⟩)
    · rw [hstored] at hid
      cases hid
    · rw [hwaiting] at hid
      cases hid
    · rw [hgoing] at hid
      cases hid
  · refine ⟨[], (List.append_nil _).symm, ?_⟩
    simp only [hhand]
    apply Credited.start
    rw [h.uploads]
    exact fun pack => List.not_mem_nil
  · rw [h.uploads]
    exact List.nodup_nil
  · rw [h.uploads]
    nofun
  · intro c
    obtain ⟨result, hidle⟩ := h.calls c
    rw [hidle]
    trivial
  · intro c
    obtain ⟨result, hidle⟩ := h.calls c
    rw [hidle]
    trivial
  · rw [h.answers]
    nofun

section Moves

variable [DecidableEq ι] {r₀ r' : BackupRun ι} {s : SaveRun ι} {c : Option ι} {call : Call}
  {answers' : List (ObjectId × Bool)} {id : ObjectId} {pack : Pack}

theorem through {β : Type*} (f : Call → β) (hcalls : r'.calls = Function.update s.run.calls c call) :
    (fun d => f (r'.calls d)) = Function.update (fun d => f (s.run.calls d)) c (f call) := by
  funext d
  rw [hcalls]
  by_cases hd : d = c
  · rw [hd, Function.update_self, Function.update_self]
  · rw [Function.update_of_ne hd, Function.update_of_ne hd]

theorem through_same {β : Type*} (f : Call → β)
    (hcalls : r'.calls = Function.update s.run.calls c call) (hsame : f call = f (s.run.calls c)) :
    (fun d => f (r'.calls d)) = fun d => f (s.run.calls d) := by
  rw [through f hcalls, hsame]
  exact Function.update_eq_self c _

theorem through_all {P : Call → Prop} (hcalls : r'.calls = Function.update s.run.calls c call)
    (hcall : P call) (hall : ∀ d, P (s.run.calls d)) : ∀ d, P (r'.calls d) := by
  intro d
  rw [hcalls]
  by_cases hd : d = c
  · rw [hd, Function.update_self]
    exact hcall
  · rw [Function.update_of_ne hd]
    exact hall d

theorem Once.elsewhere (h : s.Once r₀) (hcalls : r'.calls = Function.update s.run.calls c call)
    (hnew : r'.repo.state.newPacks = s.run.repo.state.newPacks)
    (hindex : r'.repo.index = s.run.repo.index) (hpacks : r'.store.packs = s.run.store.packs)
    (hhand : call.hand = (s.run.calls c).hand) (hindexed : call.Indexed r'.repo.index)
    (hadded : call.Added)
    (hplaced : Placed (fun id => r₀.repo.index.has id = true) s.stored
      (SaveRun.waiting ⟨r', s.uploads, answers'⟩) (fun d => (r'.calls d).going)
      r'.repo.state.inflight fun id => r'.repo.index.has id = true)
    (hgranted : Credited (Present ⟨r', s.uploads, answers'⟩) (fun d => (r'.calls d).claim)
      (SaveRun.granted ⟨r', s.uploads, answers'⟩))
    (hknown : ∀ answer ∈ answers', r₀.repo.index.has answer.1 = true ∨
      Present ⟨r', s.uploads, answers'⟩ answer.1) : Once r₀ ⟨r', s.uploads, answers'⟩ where
  placed := hplaced
  granted := hgranted
  listed := by
    obtain ⟨settled, hsettled, hcredited⟩ := h.listed
    rw [← through_same Call.hand hcalls hhand] at hcredited
    exact ⟨settled, hnew.trans hsettled, hcredited⟩
  distinct := h.distinct
  kept pack hpack := by
    change r'.store.packs[pack.id]? = some pack
    rw [hpacks]
    exact h.kept pack hpack
  indexed := by
    refine through_all (P := Call.Indexed r'.repo.index) hcalls hindexed ?_
    rw [hindex]
    exact h.indexed
  added := through_all hcalls hadded h.added
  known := hknown

theorem Once.talk (h : s.Once r₀) (hcalls : r'.calls = Function.update s.run.calls c call)
    (hbare : (s.run.calls c).Bare) (hcall : call.Bare)
    (hwaiting : (r'.repo.state.writer.map Writer.ids).getD [] = s.waiting)
    (hinflight : r'.repo.state.inflight = s.run.repo.state.inflight)
    (hnew : r'.repo.state.newPacks = s.run.repo.state.newPacks)
    (hindex : r'.repo.index = s.run.repo.index) (hpacks : r'.store.packs = s.run.store.packs)
    (hgranted : SaveRun.granted ⟨r', s.uploads, answers'⟩ = s.granted)
    (hknown : ∀ answer ∈ answers', r₀.repo.index.has answer.1 = true ∨ s.Present answer.1) :
    Once r₀ ⟨r', s.uploads, answers'⟩ := by
  have hgoing := through_same Call.going hcalls (hcall.going.trans hbare.going.symm)
  have hpresent : ∀ id, Present ⟨r', s.uploads, answers'⟩ id ↔ s.Present id := by
    intro id
    have hgoing' : (∃ d, id ∈ (r'.calls d).going) ↔ ∃ d, id ∈ (s.run.calls d).going :=
      exists_congr fun d => by rw [congrFun hgoing d]
    exact or_congr Iff.rfl (or_congr (by rw [← hwaiting]; rfl) hgoing')
  apply h.elsewhere hcalls hnew hindex hpacks (hcall.hand.trans hbare.hand.symm) (hcall.indexed _) hcall.added
  · have hplaced := h.placed
    rw [← hgoing, ← hwaiting, ← hinflight, ← hindex] at hplaced
    exact hplaced
  · have hgranted' := h.granted.congr hpresent
    rw [← through_same Call.claim hcalls (hcall.claim.trans hbare.claim.symm), ← hgranted]
      at hgranted'
    exact hgranted'
  · exact fun answer hanswer => (hknown answer hanswer).imp_right (hpresent answer.1).mpr

theorem Once.join (h : s.Once r₀) (hcalls : r'.calls = Function.update s.run.calls c call)
    (hbare : (s.run.calls c).Bare) (hcall : call.Bare)
    (hwaiting : (r'.repo.state.writer.map Writer.ids).getD [] = s.waiting ++ [id])
    (hinflight : r'.repo.state.inflight = s.run.repo.state.inflight)
    (hnew : r'.repo.state.newPacks = s.run.repo.state.newPacks)
    (hindex : r'.repo.index = s.run.repo.index) (hpacks : r'.store.packs = s.run.store.packs)
    (hhas : ¬ s.run.repo.index.has id = true) (hgrounded : id ∉ s.waiting)
    (hnot : id ∉ s.run.repo.state.inflight) :
    Once r₀ ⟨r', s.uploads, (id, true) :: s.answers⟩ := by
  have hgoing := through_same Call.going hcalls (hcall.going.trans hbare.going.symm)
  have hpresent : ∀ other, Present ⟨r', s.uploads, (id, true) :: s.answers⟩ other ↔
      s.Present other ∨ other = id := by
    intro other
    have hgoing' : (∃ d, other ∈ (r'.calls d).going) ↔ ∃ d, other ∈ (s.run.calls d).going :=
      exists_congr fun d => by rw [congrFun hgoing d]
    have hwaiting' : other ∈ (r'.repo.state.writer.map Writer.ids).getD [] ↔
        other ∈ s.waiting ∨ other = id := by
      rw [hwaiting, List.mem_append, List.mem_singleton]
    unfold Present
    change other ∈ s.stored ∨ other ∈ (r'.repo.state.writer.map Writer.ids).getD [] ∨
      (∃ d, other ∈ (r'.calls d).going) ↔ _
    rw [hgoing', hwaiting']
    simp only [or_assoc, or_comm, or_left_comm]
  obtain ⟨hstored, hgone⟩ := h.placed.nowhere hhas hnot
  have hnew' : ¬ s.Present id := by
    rintro (hid | hid | ⟨d, hid⟩)
    · exact hstored hid
    · exact hgrounded hid
    · exact hgone d hid
  apply h.elsewhere hcalls hnew hindex hpacks (hcall.hand.trans hbare.hand.symm) (hcall.indexed _) hcall.added
  · have hplaced := h.placed.join hhas hgrounded hnot
    rw [← hgoing, ← hwaiting, ← hinflight, ← hindex] at hplaced
    exact hplaced
  · have hgranted := h.granted.grant hnew' hpresent
    rw [← through_same Call.claim hcalls (hcall.claim.trans hbare.claim.symm)] at hgranted
    exact hgranted
  · intro answer hanswer
    rcases List.mem_cons.mp hanswer with rfl | hanswer
    · exact .inr ((hpresent id).mpr (.inr rfl))
    · exact (h.known answer hanswer).imp_right fun hp => (hpresent _).mpr (.inl hp)

theorem departs (hcalls : r'.calls = Function.update s.run.calls c call)
    (hbare : (s.run.calls c).Bare) (hcall : call.going = pack.ids)
    (hwriter : r'.repo.state.writer = none) (other : ObjectId) {uploads : List Pack}
    (huploads : uploads = s.uploads) {answers : List (ObjectId × Bool)} :
    Present ⟨r', uploads, answers⟩ other ↔
      other ∈ s.stored ∨ other ∈ pack.ids ∨ ∃ d, other ∈ (s.run.calls d).going := by
  have hgoing : (∃ d, other ∈ (r'.calls d).going) ↔
      other ∈ pack.ids ∨ ∃ d, other ∈ (s.run.calls d).going := by
    have hthrough := through Call.going hcalls
    constructor
    · rintro ⟨d, hd⟩
      rw [congrFun hthrough d, hcall] at hd
      by_cases hdc : d = c
      · rw [hdc, Function.update_self] at hd
        exact .inl hd
      · rw [Function.update_of_ne hdc] at hd
        exact .inr ⟨d, hd⟩
    · rintro (hmem | ⟨d, hd⟩)
      · refine ⟨c, ?_⟩
        rw [congrFun hthrough c, Function.update_self, hcall]
        exact hmem
      · refine ⟨d, ?_⟩
        have hdc : d ≠ c := by
          rintro rfl
          rw [hbare.going] at hd
          cases hd
        rw [congrFun hthrough d, Function.update_of_ne hdc]
        exact hd
  unfold Present stored waiting
  simp only [hwriter, hgoing, huploads, Option.map_none, Option.getD_none, List.not_mem_nil,
    false_or]

theorem Once.fill (h : s.Once r₀)
    (hcalls : r'.calls = Function.update s.run.calls c (.uploading (.saveBlob id true) pack))
    (hbare : (s.run.calls c).Bare) (hids : pack.ids = s.waiting ++ [id])
    (hwriter : r'.repo.state.writer = none)
    (hinflight : r'.repo.state.inflight = s.run.repo.state.inflight ∪ pack.ids.toFinset)
    (hnew : r'.repo.state.newPacks = s.run.repo.state.newPacks)
    (hindex : r'.repo.index = s.run.repo.index) (hpacks : r'.store.packs = s.run.store.packs)
    (hhas : ¬ s.run.repo.index.has id = true) (hgrounded : id ∉ s.waiting)
    (hnot : id ∉ s.run.repo.state.inflight) : Once r₀ ⟨r', s.uploads, s.answers⟩ := by
  have hpresent : ∀ other, Present ⟨r', s.uploads, s.answers⟩ other ↔
      s.Present other ∨ other = id := by
    intro other
    rw [departs hcalls hbare rfl hwriter other rfl, hids, List.mem_append, List.mem_singleton]
    unfold Present
    simp only [or_assoc, or_comm, or_left_comm]
  obtain ⟨hstored, hgone⟩ := h.placed.nowhere hhas hnot
  have hnew' : ¬ s.Present id := by
    rintro (hid | hid | ⟨d, hid⟩)
    · exact hstored hid
    · exact hgrounded hid
    · exact hgone d hid
  apply h.elsewhere hcalls hnew hindex hpacks hbare.hand.symm trivial rfl
  · have hplaced := (h.placed.join hhas hgrounded hnot).depart (c := c) hbare.going
    rw [← hids, ← hinflight, ← hindex] at hplaced
    have hwaiting : SaveRun.waiting ⟨r', s.uploads, s.answers⟩ = [] := by
      unfold waiting
      rw [hwriter]
      rfl
    rw [hwaiting]
    exact (through Call.going hcalls) ▸ hplaced
  · have hgranted := h.granted.promise (c := c) hnew' hbare.claim hpresent
    exact (through Call.claim hcalls) ▸ hgranted
  · intro answer hanswer
    exact (h.known answer hanswer).imp_right fun hp => (hpresent _).mpr (.inl hp)

theorem Once.depart (h : s.Once r₀) {late : Bool}
    (hcalls : r'.calls = Function.update s.run.calls c (.uploading (.flush late) pack))
    (hbare : (s.run.calls c).Bare) (hids : pack.ids = s.waiting)
    (hwriter : r'.repo.state.writer = none)
    (hinflight : r'.repo.state.inflight = s.run.repo.state.inflight ∪ pack.ids.toFinset)
    (hnew : r'.repo.state.newPacks = s.run.repo.state.newPacks)
    (hindex : r'.repo.index = s.run.repo.index) (hpacks : r'.store.packs = s.run.store.packs) :
    Once r₀ ⟨r', s.uploads, s.answers⟩ := by
  have hpresent : ∀ other, Present ⟨r', s.uploads, s.answers⟩ other ↔ s.Present other := by
    intro other
    rw [departs hcalls hbare rfl hwriter other rfl, hids]
    rfl
  apply h.elsewhere hcalls hnew hindex hpacks hbare.hand.symm trivial trivial
  · have hplaced := h.placed.depart (c := c) hbare.going
    rw [← hids, ← hinflight, ← hindex] at hplaced
    have hwaiting : SaveRun.waiting ⟨r', s.uploads, s.answers⟩ = [] := by
      unfold waiting
      rw [hwriter]
      rfl
    rw [hwaiting]
    exact (through Call.going hcalls) ▸ hplaced
  · have hgranted := h.granted.congr hpresent
    rw [← through_same Call.claim hcalls hbare.claim.symm] at hgranted
    exact hgranted
  · intro answer hanswer
    exact (h.known answer hanswer).imp_right (hpresent _).mpr

omit [DecidableEq ι] in
theorem Once.handed {uploader : Uploader} (h : s.Once r₀)
    (hc : s.run.calls c = .uploaded uploader pack ∨ s.run.calls c = .indexed uploader pack) :
    pack ∈ s.uploads ∧ ∀ id ∈ pack.ids, id ∈ s.stored := by
  obtain ⟨settled, -, hcredited⟩ := h.listed
  have hhand : (s.run.calls c).hand = some pack := by
    rcases hc with hc | hc
    · rw [hc]
      rfl
    · rw [hc]
      rfl
  have hmem := (hcredited.claimed c pack hhand).1
  exact ⟨hmem, fun id hid => List.mem_flatMap.mpr ⟨pack, hmem, hid⟩⟩

theorem Once.arrive {uploader : Uploader} (h : s.Once r₀)
    (hc : s.run.calls c = .uploading uploader pack)
    (hcalls : r'.calls = Function.update s.run.calls c (.uploaded uploader pack))
    (hrepo : r'.repo = s.run.repo) (hfresh : pack.id ∉ s.run.store.packs)
    (hpacks : r'.store.packs = s.run.store.packs.insert pack.id pack) :
    Once r₀ ⟨r', pack :: s.uploads, s.answers⟩ := by
  have hgoing : (s.run.calls c).going = pack.ids := by
    rw [hc]
    rfl
  have hhand : (s.run.calls c).hand = none := by
    rw [hc]
    rfl
  have hclaim : (Call.uploaded uploader pack).claim = (s.run.calls c).claim := by
    rw [hc]
    cases uploader <;> rfl
  have hunused : ∀ p ∈ s.uploads, pack.id ≠ p.id := by
    intro p hp heq
    exact hfresh (heq ▸ IdMap.mem_of_getElem? (h.kept p hp))
  have hstored : SaveRun.stored ⟨r', pack :: s.uploads, s.answers⟩ = pack.ids ++ s.stored := rfl
  have hthrough := through Call.going hcalls
  have hpresent : ∀ id, Present ⟨r', pack :: s.uploads, s.answers⟩ id ↔ s.Present id := by
    intro id
    unfold Present
    rw [hstored, List.mem_append]
    unfold waiting
    rw [hrepo]
    constructor
    · rintro ((hid | hid) | hid | ⟨d, hid⟩)
      · exact .inr (.inr ⟨c, hgoing ▸ hid⟩)
      · exact .inl hid
      · exact .inr (.inl hid)
      · rw [congrFun hthrough d] at hid
        by_cases hd : d = c
        · rw [hd, Function.update_self] at hid
          cases hid
        · rw [Function.update_of_ne hd] at hid
          exact .inr (.inr ⟨d, hid⟩)
    · rintro (hid | hid | ⟨d, hid⟩)
      · exact .inl (.inr hid)
      · exact .inr (.inl hid)
      · by_cases hd : d = c
        · rw [hd, hgoing] at hid
          exact .inl (.inl hid)
        · refine .inr (.inr ⟨d, ?_⟩)
          rw [congrFun hthrough d, Function.update_of_ne hd]
          exact hid
  constructor
  · have hplaced := h.placed.arrive (c := c)
    rw [hgoing, ← hstored] at hplaced
    change Placed _ _ (r'.repo.state.writer.map Writer.ids |>.getD []) _ r'.repo.state.inflight
      fun id => r'.repo.index.has id = true
    rw [hrepo]
    exact hthrough ▸ hplaced
  · have hgranted := h.granted.congr hpresent
    rw [← through_same Call.claim hcalls hclaim] at hgranted
    exact hgranted
  · obtain ⟨settled, hsettled, hcredited⟩ := h.listed
    have hnew : ¬ pack ∈ s.uploads := fun hmem => hunused pack hmem rfl
    refine ⟨settled, (congrArg (fun repo => repo.state.newPacks) hrepo).trans hsettled, ?_⟩
    have hpresent' : ∀ p, p ∈ pack :: s.uploads ↔ p ∈ s.uploads ∨ p = pack := by
      intro p
      rw [List.mem_cons, or_comm]
    have hpromised := hcredited.promise (c := c) hnew hhand hpresent'
    exact (through Call.hand hcalls) ▸ hpromised
  · rw [List.map_cons, List.nodup_cons]
    refine ⟨fun hmem => ?_, h.distinct⟩
    obtain ⟨p, hp, heq⟩ := List.mem_map.mp hmem
    exact hunused p hp heq.symm
  · intro p hp
    change r'.store.packs[p.id]? = some p
    rw [hpacks, IdMap.getElem?_insert]
    rcases List.mem_cons.mp hp with rfl | hp
    · exact if_pos rfl
    · rw [if_neg (hunused p hp)]
      exact h.kept p hp
  · refine through_all (P := Call.Indexed r'.repo.index) hcalls trivial ?_
    rw [hrepo]
    exact h.indexed
  · have hadded := h.added c
    rw [hc] at hadded
    apply through_all hcalls ?_ h.added
    cases uploader with
    | saveBlob id added => exact hadded
    | flush late => trivial
  · exact fun answer hanswer => (h.known answer hanswer).imp_right (hpresent _).mpr

theorem Once.learn {uploader : Uploader} (h : s.Once r₀)
    (hc : s.run.calls c = .uploaded uploader pack)
    (hcalls : r'.calls = Function.update s.run.calls c (.indexed uploader pack))
    (hstate : r'.repo.state = s.run.repo.state)
    (hindex : r'.repo.index = s.run.repo.index.addPack pack.listing)
    (hpacks : r'.store.packs = s.run.store.packs) : Once r₀ ⟨r', s.uploads, s.answers⟩ := by
  have hbatch := (h.handed (.inl hc)).2
  have hhas : ∀ id, r'.repo.index.has id = true ↔
      s.run.repo.index.has id = true ∨ id ∈ pack.ids := by
    intro id
    rw [hindex]
    exact Index.has_addPack
  have hgoing := through_same Call.going hcalls (by rw [hc]; rfl)
  have hpresent : ∀ id, Present ⟨r', s.uploads, s.answers⟩ id ↔ s.Present id := by
    intro id
    have hgoing' : (∃ d, id ∈ (r'.calls d).going) ↔ ∃ d, id ∈ (s.run.calls d).going :=
      exists_congr fun d => by rw [congrFun hgoing d]
    unfold Present waiting
    rw [hgoing', hstate]
    rfl
  constructor
  · have hplaced := h.placed.learn hbatch hhas
    rw [← hgoing] at hplaced
    change Placed _ _ (r'.repo.state.writer.map Writer.ids |>.getD []) _ r'.repo.state.inflight
      fun id => r'.repo.index.has id = true
    rw [hstate]
    exact hplaced
  · have hgranted := h.granted.congr hpresent
    have hclaim : (Call.indexed uploader pack).claim = (s.run.calls c).claim := by
      rw [hc]
      cases uploader <;> rfl
    rw [← through_same Call.claim hcalls hclaim] at hgranted
    exact hgranted
  · obtain ⟨settled, hsettled, hcredited⟩ := h.listed
    rw [← through_same Call.hand hcalls (by rw [hc]; rfl)] at hcredited
    exact ⟨settled, (congrArg WriteState.newPacks hstate).trans hsettled, hcredited⟩
  · exact h.distinct
  · intro pack hpack
    change r'.store.packs[pack.id]? = some pack
    rw [hpacks]
    exact h.kept pack hpack
  · refine through_all (P := Call.Indexed r'.repo.index) hcalls ?_ ?_
    · exact fun id hid => (hhas id).mpr (.inr hid)
    · intro d
      have hbefore := h.indexed d
      cases hd : s.run.calls d with
      | indexed uploader pack =>
          rw [hd] at hbefore
          exact fun id hid => (hhas id).mpr (.inl (hbefore id hid))
      | _ => trivial
  · have hadded := h.added c
    rw [hc] at hadded
    apply through_all hcalls ?_ h.added
    cases uploader with
    | saveBlob id added => exact hadded
    | flush late => trivial
  · exact fun answer hanswer => (h.known answer hanswer).imp_right (hpresent _).mpr

theorem Once.settle {uploader : Uploader} (h : s.Once r₀)
    (hc : s.run.calls c = .indexed uploader pack)
    (hcalls : r'.calls = Function.update s.run.calls c call) (hcall : call.Bare)
    (hwriter : r'.repo.state.writer = s.run.repo.state.writer)
    (hinflight : r'.repo.state.inflight = s.run.repo.state.inflight \ pack.ids.toFinset)
    (hnew : r'.repo.state.newPacks = s.run.repo.state.newPacks ++ [pack.listing])
    (hindex : r'.repo.index = s.run.repo.index) (hpacks : r'.store.packs = s.run.store.packs)
    (hanswers : match uploader with
      | .saveBlob id added => answers' = (id, added) :: s.answers
      | .flush _ => answers' = s.answers) : Once r₀ ⟨r', s.uploads, answers'⟩ := by
  obtain ⟨hmem, hbatch⟩ := h.handed (.inr hc)
  have hgoing := through_same Call.going hcalls (by rw [hc]; exact hcall.going)
  have hpresent : ∀ id, Present ⟨r', s.uploads, answers'⟩ id ↔ s.Present id := by
    intro id
    have hgoing' : (∃ d, id ∈ (r'.calls d).going) ↔ ∃ d, id ∈ (s.run.calls d).going :=
      exists_congr fun d => by rw [congrFun hgoing d]
    unfold Present waiting
    rw [hgoing', hwriter]
    rfl
  have hknown : ∀ id ∈ pack.ids, s.run.repo.index.has id = true := by
    have hindexed := h.indexed c
    rw [hc] at hindexed
    exact hindexed
  constructor
  · have hplaced := h.placed.settle fun id hid => ⟨hbatch id hid, hknown id hid⟩
    rw [← hgoing, ← hinflight, ← hindex] at hplaced
    change Placed _ _ (r'.repo.state.writer.map Writer.ids |>.getD []) _ _ _
    rw [hwriter]
    exact hplaced
  · have hgranted := h.granted.congr hpresent
    cases uploader with
    | saveBlob id added =>
        have hadded := h.added c
        rw [hc] at hadded
        cases hadded
        rw [hanswers]
        have hredeemed := hgranted.redeem (c := c) (by rw [hc]; rfl) (List.Perm.refl _)
        rw [through Call.claim hcalls, hcall.claim]
        exact hredeemed
    | flush late =>
        rw [hanswers]
        rw [← through_same Call.claim hcalls (by rw [hc]; exact hcall.claim)] at hgranted
        exact hgranted
  · obtain ⟨settled, hsettled, hcredited⟩ := h.listed
    refine ⟨settled ++ [pack], ?_, ?_⟩
    · rw [List.map_append, ← List.append_assoc, ← hsettled]
      exact hnew
    · have hredeemed := hcredited.redeem (c := c) (by rw [hc]; rfl)
        (List.perm_append_singleton pack settled)
      rw [through Call.hand hcalls, hcall.hand]
      exact hredeemed
  · exact h.distinct
  · intro pack hpack
    change r'.store.packs[pack.id]? = some pack
    rw [hpacks]
    exact h.kept pack hpack
  · refine through_all (P := Call.Indexed r'.repo.index) hcalls (hcall.indexed _) ?_
    rw [hindex]
    exact h.indexed
  · exact through_all hcalls hcall.added h.added
  · intro answer hanswer
    cases uploader with
    | saveBlob id added =>
        rw [hanswers] at hanswer
        rcases List.mem_cons.mp hanswer with rfl | hanswer
        · right
          apply (hpresent id).mpr
          exact (h.granted.claimed c id (by rw [hc]; rfl)).1
        · exact (h.known answer hanswer).imp_right (hpresent _).mpr
    | flush late =>
        rw [hanswers] at hanswer
        exact (h.known answer hanswer).imp_right (hpresent _).mpr

theorem Once.refuses (h : s.Once r₀) (hbare : (s.run.calls c).Bare)
    (hknown : r₀.repo.index.has id = true ∨ s.Present id) :
    Once r₀ ⟨s.run.acks c id false, s.uploads, (id, false) :: s.answers⟩ := by
  have hcalls : (s.run.acks c id false).calls =
    Function.update s.run.calls c (.idle (some (.ok (.saved id false)))) := rfl
  refine h.talk hcalls hbare trivial rfl rfl rfl rfl rfl rfl ?_
  intro answer hanswer
  rcases List.mem_cons.mp hanswer with rfl | hanswer
  · exact hknown
  · exact h.known answer hanswer

theorem Once.goes (h : s.Once r₀) (hbare : (s.run.calls c).Bare) (hcall : call.Bare) :
    Once r₀ ⟨s.run.goto c call, s.uploads, s.answers⟩ :=
  h.talk rfl hbare hcall rfl rfl rfl rfl rfl rfl h.known

omit [DecidableEq ι] in
theorem Once.indexed_known (h : s.Once r₀) (hhas : s.run.repo.index.has id = true) :
    r₀.repo.index.has id = true ∨ s.Present id :=
  (h.placed.learnt id hhas).imp_right .inl

omit [DecidableEq ι] in
theorem Once.pending_known (h : s.Once r₀) (hpending : s.run.repo.state.isPending id = true) :
    s.Present id := by
  unfold WriteState.isPending at hpending
  rcases Bool.or_eq_true_iff.mp hpending with hwriter | hinflight
  · obtain ⟨w, hw, hid⟩ := (Option.any_eq_true _ _).mp hwriter
    refine .inr (.inl ?_)
    unfold waiting
    rw [hw]
    exact Writer.has_iff.mp hid
  · rcases h.placed.counted id (of_decide_eq_true hinflight) with hid | hid
    · exact .inl hid
    · exact .inr (.inr hid)

omit [DecidableEq ι] in
theorem unpending (hpending : ¬ s.run.repo.state.isPending id = true) :
    id ∉ s.waiting ∧ id ∉ s.run.repo.state.inflight := by
  unfold WriteState.isPending at hpending
  rw [Bool.or_eq_true_iff, not_or] at hpending
  refine ⟨fun hid => hpending.1 ?_, fun hid => hpending.2 (decide_eq_true hid)⟩
  unfold waiting at hid
  rcases Option.eq_none_or_eq_some s.run.repo.state.writer with hnone | ⟨w, hw⟩
  · rw [hnone] at hid
    cases hid
  · rw [hw] at hid
    exact (Option.any_eq_true _ _).mpr ⟨w, hw, Writer.has_iff.mpr hid⟩

omit [DecidableEq ι] in
theorem finish_ids {w : Writer} (hfinish : w.finish = .ok pack) : pack.ids = w.ids := by
  unfold Writer.finish at hfinish
  simp only at hfinish
  split_ifs at hfinish
  cases hfinish
  rfl

def record (s : SaveRun ι) (c : Option ι) (r' : BackupRun ι) : SaveRun ι :=
  ⟨r', s.uploads, (r'.calls c).answers ++ s.answers⟩

theorem record_goto : s.record c (r'.goto c call) =
    ⟨r'.goto c call, s.uploads, call.answers ++ s.answers⟩ := by
  unfold record
  rw [BackupRun.goto_self]

theorem record_acks {added : Bool} : s.record c (r'.acks c id added) =
    ⟨r'.acks c id added, s.uploads, (id, added) :: s.answers⟩ :=
  record_goto

theorem Once.saveBlob {p : Plaintext} (h : s.Once r₀) (hbare : (s.run.calls c).Bare) :
    (s.record c (s.run.saveBlob c p)).Once r₀ := by
  unfold BackupRun.saveBlob
  split_ifs with hhas
  · rw [record_acks]
    exact h.refuses hbare (h.indexed_known hhas)
  · rw [record_goto]
    exact h.goes hbare trivial

theorem Once.look {p : Plaintext} (h : s.Once r₀) (hbare : (s.run.calls c).Bare)
    (hok : ∀ e, (s.run.look c p).calls c ≠ .idle (some (.error e))) :
    (s.record c (s.run.look c p)).Once r₀ := by
  unfold BackupRun.look at hok ⊢
  split at hok
  · exact absurd BackupRun.goto_self (hok _)
  · split_ifs with hpending
    · rw [record_acks]
      exact h.refuses hbare (.inr (h.pending_known hpending))
    · rw [record_goto]
      exact h.goes hbare trivial

theorem Once.place {p : Plaintext} {packId : ObjectId} (h : s.Once r₀)
    (hbare : (s.run.calls c).Bare)
    (hok : ∀ e, (s.run.place c p packId).calls c ≠ .idle (some (.error e))) :
    (s.record c (s.run.place c p packId)).Once r₀ := by
  unfold BackupRun.place at hok ⊢
  split at hok
  · exact absurd BackupRun.goto_self (hok _)
  rename_i b hb
  split at hok
  · exact absurd BackupRun.goto_self (hok _)
  split_ifs at hok ⊢ with hknown
  · rw [record_acks]
    rcases Bool.or_eq_true_iff.mp hknown with hhas | hpending
    · exact h.refuses hbare (h.indexed_known hhas)
    · exact h.refuses hbare (.inr (h.pending_known hpending))
  obtain ⟨hhas, hpending⟩ := not_or.mp (mt Bool.or_eq_true_iff.mpr hknown)
  obtain ⟨hgrounded, hnot⟩ := unpending hpending
  have hids : (s.run.repo.state.writer.getD (.new packId)).ids = s.waiting := by
    unfold waiting
    cases s.run.repo.state.writer <;> rfl
  generalize s.run.repo.state.writer.getD (.new packId) = w at hids hok ⊢
  dsimp only at hok ⊢
  split at hok
  · exact absurd BackupRun.goto_self (hok _)
  rename_i added w' hpush
  have hid : b.id = p.id := SealedBlob.seal_id hb
  obtain ⟨rfl, hids', -⟩ := Writer.push_new (by rw [hid, hids]; exact hgrounded) hpush
  rw [hids, hid] at hids'
  split_ifs at hok ⊢ with hfull
  · split at hok
    · exact absurd BackupRun.goto_self (hok _)
    rename_i pack hfinish
    have hentries := finish_ids hfinish
    rw [record_goto]
    exact h.fill rfl hbare (hentries.trans hids') rfl rfl rfl rfl rfl hhas hgrounded hnot
  · rw [record_acks]
    exact h.join rfl hbare trivial hids' rfl rfl rfl rfl hhas hgrounded hnot

theorem Once.takeOpen {late : Bool} (h : s.Once r₀) (hbare : (s.run.calls none).Bare)
    (hok : ∀ e, (s.run.takeOpen late).calls none ≠ .idle (some (.error e))) :
    (s.record none (s.run.takeOpen late)).Once r₀ := by
  unfold BackupRun.takeOpen at hok ⊢
  dsimp only at hok ⊢
  split at hok
  · rename_i hnone
    have hwaiting : s.waiting = [] := by
      unfold waiting
      cases hwriter : s.run.repo.state.writer with
      | none => rfl
      | some w =>
          rw [hwriter, Option.filter_eq_none_iff] at hnone
          have hempty := hnone w rfl
          rw [decide_eq_true_eq, not_not] at hempty
          rw [Option.map_some, Option.getD_some, Writer.ids, hempty, List.map_nil]
    rw [record_goto]
    exact h.talk rfl hbare trivial hwaiting.symm rfl rfl rfl rfl rfl h.known
  · rename_i w hsome
    split at hok
    · rename_i pack hfinish
      obtain ⟨hwriter, -⟩ := Option.filter_eq_some_iff.mp hsome
      have hids : pack.ids = s.waiting := by
        unfold waiting
        rw [finish_ids hfinish, hwriter, Option.map_some, Option.getD_some]
      rw [record_goto]
      exact h.depart rfl hbare hids rfl rfl rfl rfl rfl
    · exact absurd BackupRun.goto_self (hok _)

theorem Once.putPack {c : Option ι} {uploader : Uploader} {pack : Pack} (h : s.Once r₀)
    (hc : s.run.calls c = .uploading uploader pack) (hfresh : pack.id ∉ s.run.store.packs) :
    Once r₀ ⟨s.run.putPack c uploader pack .done, BackupStep.puts s.run (.putPack c .done) ++ s.uploads,
      ((s.run.putPack c uploader pack .done).calls c).answers ++ s.answers⟩ := by
  have harrived : Once r₀ ⟨s.run.putPack c uploader pack .done, pack :: s.uploads, s.answers⟩ :=
    h.arrive hc rfl rfl hfresh rfl
  have hputs : BackupStep.puts s.run (.putPack c .done) = [pack] := by
    simp only [BackupStep.puts, hc]
  have hanswers : ((s.run.putPack c uploader pack .done).calls c).answers = [] :=
    congrArg Call.answers BackupRun.goto_self
  rw [hputs, hanswers]
  exact harrived

theorem Once.settled {c : Option ι} {uploader : Uploader} {pack : Pack} (h : s.Once r₀)
    (hc : s.run.calls c = .indexed uploader pack) :
    (s.record c (s.run.settle c uploader pack)).Once r₀ := by
  unfold BackupRun.settle
  cases uploader with
  | saveBlob id added =>
      simp only
      rw [record_acks]
      exact h.settle hc rfl trivial rfl rfl rfl rfl rfl rfl
  | flush late =>
      simp only
      rw [record_goto]
      exact h.settle hc rfl trivial rfl rfl rfl rfl rfl rfl

theorem Once.step {a : BackupStep ι} {t : SaveRun ι} (h : s.Once r₀) (hgathers : a.gathers = true)
    (hok : s.Succeeds a) (hstep : s.step a = some t) : t.Once r₀ := by
  have hreturns := hok.2 t hstep
  have hdone := hok.1
  unfold SaveRun.step at hstep
  obtain ⟨r', hr', rfl⟩ := Option.map_eq_some_iff.mp hstep
  change ∀ e, r'.calls a.caller ≠ _ at hreturns
  cases BackupRun.takes_of_step hr' with
  | saveBlob hc => exact h.saveBlob (by rw [hc]; trivial)
  | look hc => exact h.look (by rw [hc]; trivial) hreturns
  | place hc => exact h.place (by rw [hc]; trivial) hreturns
  | @putPack c uploader pack outcome hc hfresh =>
      cases outcome with
      | failed message kept => cases hdone
      | done => exact h.putPack hc hfresh
  | @addPack c uploader pack hc =>
      change (s.record c _).Once r₀
      unfold BackupRun.addPack
      rw [record_goto]
      exact h.learn hc rfl rfl rfl rfl
  | settle hc => exact h.settled hc
  | flush hc =>
      unfold BackupRun.ifWritable at hreturns
      change (s.record none _).Once r₀
      unfold BackupRun.ifWritable
      split at hreturns
      · exact absurd BackupRun.goto_self (hreturns _)
      · rw [record_goto]
        exact h.goes (by rw [hc]; trivial) trivial
  | takeOpen hc => exact h.takeOpen (by rw [hc]; trivial) hreturns
  | _ => cases hgathers

structure Proceeds (r r' : BackupRun ι) (c : Option ι) : Prop where
  others : ∀ d, d ≠ c → r'.calls d = r.calls d
  own : ∀ id, (r.calls c).brings = some id →
    (r'.calls c).brings = some id ∨ ∃ added, (id, added) ∈ (r'.calls c).answers
  indexes : r'.store.indexes = r.store.indexes

theorem proceeds_goto {r : BackupRun ι} (hcalls : r'.calls = Function.update r.calls c call)
    (hindexes : r'.store.indexes = r.store.indexes)
    (hown : ∀ id, (r.calls c).brings = some id →
      call.brings = some id ∨ ∃ added, (id, added) ∈ call.answers) : Proceeds r r' c where
  others d hd := by
    rw [hcalls]
    exact Function.update_of_ne hd ..
  own id hid := by
    rw [hcalls, Function.update_self]
    exact hown id hid
  indexes := hindexes

theorem proceeds_quiet {r : BackupRun ι} (hcalls : r'.calls = Function.update r.calls c call)
    (hindexes : r'.store.indexes = r.store.indexes) (hquiet : (r.calls c).brings = none) :
    Proceeds r r' c := by
  apply proceeds_goto hcalls hindexes
  intro id hid
  rw [hquiet] at hid
  cases hid

theorem proceeds_acks {r : BackupRun ι} {added : Bool}
    (hcalls : r'.calls = Function.update r.calls c (.idle (some (.ok (.saved id added)))))
    (hindexes : r'.store.indexes = r.store.indexes)
    (hown : (r.calls c).brings = some id ∨ (r.calls c).brings = none) : Proceeds r r' c := by
  apply proceeds_goto hcalls hindexes
  intro other hother
  rcases hown with hown | hown
  · rw [hown] at hother
    cases hother
    exact .inr ⟨added, List.mem_singleton_self _⟩
  · rw [hown] at hother
    cases hother

theorem proceeds_same {r : BackupRun ι} (hcalls : r'.calls = Function.update r.calls c call)
    (hindexes : r'.store.indexes = r.store.indexes) (hsame : (r.calls c).brings = call.brings) :
    Proceeds r r' c :=
  proceeds_goto hcalls hindexes fun _ hid => .inl (hsame.symm.trans hid)

theorem saveBlob_proceeds {r : BackupRun ι} {p : Plaintext} (hquiet : (r.calls c).brings = none) :
    Proceeds r (r.saveBlob c p) c := by
  unfold BackupRun.saveBlob
  split_ifs
  · exact proceeds_acks rfl rfl (.inr hquiet)
  · exact proceeds_quiet rfl rfl hquiet

theorem look_proceeds {r : BackupRun ι} {p : Plaintext} (hbrings : (r.calls c).brings = some p.id)
    (hok : ∀ e, (r.look c p).calls c ≠ .idle (some (.error e))) : Proceeds r (r.look c p) c := by
  unfold BackupRun.look at hok ⊢
  split at hok
  · exact absurd BackupRun.goto_self (hok _)
  · split_ifs
    · exact proceeds_acks rfl rfl (.inl hbrings)
    · exact proceeds_same rfl rfl hbrings

theorem place_proceeds {r : BackupRun ι} {p : Plaintext} {packId : ObjectId}
    (hbrings : (r.calls c).brings = some p.id)
    (hok : ∀ e, (r.place c p packId).calls c ≠ .idle (some (.error e))) :
    Proceeds r (r.place c p packId) c := by
  unfold BackupRun.place at hok ⊢
  split at hok
  · exact absurd BackupRun.goto_self (hok _)
  split at hok
  · exact absurd BackupRun.goto_self (hok _)
  split_ifs at hok ⊢
  · exact proceeds_acks rfl rfl (.inl hbrings)
  dsimp only at hok ⊢
  split at hok
  · exact absurd BackupRun.goto_self (hok _)
  split_ifs at hok ⊢
  · split at hok
    · exact absurd BackupRun.goto_self (hok _)
    · exact proceeds_same rfl rfl hbrings
  · exact proceeds_acks rfl rfl (.inl hbrings)

theorem settle_proceeds {r : BackupRun ι} {uploader : Uploader} {pack : Pack}
    (hc : r.calls c = .indexed uploader pack) : Proceeds r (r.settle c uploader pack) c := by
  unfold BackupRun.settle
  cases uploader with
  | saveBlob id added => exact proceeds_acks rfl rfl (.inl (congrArg Call.brings hc))
  | flush late => exact proceeds_quiet rfl rfl (congrArg Call.brings hc)

theorem takeOpen_proceeds {r : BackupRun ι} {late : Bool}
    (hquiet : (r.calls none).brings = none) : Proceeds r (r.takeOpen late) none := by
  unfold BackupRun.takeOpen
  dsimp only
  split
  · exact proceeds_quiet rfl rfl hquiet
  · split
    · exact proceeds_quiet rfl rfl hquiet
    · exact proceeds_quiet rfl rfl hquiet

theorem proceeds {a : BackupStep ι} {t : SaveRun ι} (hgathers : a.gathers = true)
    (hok : s.Succeeds a) (hstep : s.step a = some t) : Proceeds s.run t.run a.caller := by
  have hreturns := hok.2 t hstep
  have hdone := hok.1
  unfold SaveRun.step at hstep
  obtain ⟨r', hr', rfl⟩ := Option.map_eq_some_iff.mp hstep
  change ∀ e, r'.calls a.caller ≠ _ at hreturns
  change Proceeds s.run r' a.caller
  cases BackupRun.takes_of_step hr' with
  | saveBlob hc => exact saveBlob_proceeds (congrArg Call.brings hc)
  | look hc => exact look_proceeds (congrArg Call.brings hc) hreturns
  | place hc => exact place_proceeds (congrArg Call.brings hc) hreturns
  | @putPack c uploader pack outcome hc hfresh =>
      cases outcome with
      | failed message kept => cases hdone
      | done =>
          refine proceeds_same rfl rfl ((congrArg Call.brings hc).trans ?_)
          cases uploader <;> rfl
  | @addPack c uploader pack hc =>
      refine proceeds_same rfl rfl ((congrArg Call.brings hc).trans ?_)
      cases uploader <;> rfl
  | settle hc => exact settle_proceeds hc
  | flush hc =>
      unfold BackupRun.ifWritable
      split
      · exact proceeds_quiet rfl rfl (congrArg Call.brings hc)
      · exact proceeds_quiet rfl rfl (congrArg Call.brings hc)
  | takeOpen hc => exact takeOpen_proceeds (congrArg Call.brings hc)
  | _ => cases hgathers

def Asked (s : SaveRun ι) (id : ObjectId) : Prop :=
  (∃ added, (id, added) ∈ s.answers) ∨ ∃ c, (s.run.calls c).brings = some id

theorem Asked.step {a : BackupStep ι} {t : SaveRun ι} (h : s.Asked id)
    (hgathers : a.gathers = true) (hok : s.Succeeds a) (hstep : s.step a = some t) :
    t.Asked id := by
  obtain ⟨hothers, hown, -⟩ := proceeds hgathers hok hstep
  unfold SaveRun.step at hstep
  obtain ⟨r', -, rfl⟩ := Option.map_eq_some_iff.mp hstep
  rcases h with ⟨added, hmem⟩ | ⟨c, hc⟩
  · exact .inl ⟨added, List.mem_append_right _ hmem⟩
  · by_cases heq : c = a.caller
    · rw [heq] at hc
      rcases hown id hc with hbrings | ⟨added, hmem⟩
      · exact .inr ⟨a.caller, hbrings⟩
      · exact .inl ⟨added, List.mem_append_left _ hmem⟩
    · exact .inr ⟨c, (congrArg Call.brings (hothers c heq)).trans hc⟩

omit [DecidableEq ι] in
theorem saves_gathers {a : BackupStep ι} (hsaves : a.saves = true) : a.gathers = true := by
  cases a <;> first | rfl | cases hsaves

theorem asked_saveBlob {i : ι} {p : Plaintext} {t : SaveRun ι}
    (hstep : s.step (.saveBlob i p) = some t) : t.Asked p.id := by
  unfold SaveRun.step at hstep
  obtain ⟨r', hr', rfl⟩ := Option.map_eq_some_iff.mp hstep
  cases BackupRun.takes_of_step hr'
  unfold Asked BackupRun.saveBlob
  split_ifs
  · refine .inl ⟨false, List.mem_append_left _ ?_⟩
    change (p.id, false) ∈ (BackupRun.calls _ (some i)).answers
    unfold BackupRun.acks BackupRun.returns
    rw [BackupRun.goto_self]
    exact List.mem_singleton_self _
  · exact .inr ⟨some i, congrArg Call.brings BackupRun.goto_self⟩

theorem saves_once {t : SaveRun ι} {saves : List (BackupStep ι)} (h : s.Once r₀)
    (hrun : Runs step Succeeds s saves t) (hsaves : ∀ a ∈ saves, a.saves = true) :
    t.Once r₀ ∧ t.run.store.indexes = s.run.store.indexes ∧
      (∀ id, s.Asked id → t.Asked id) ∧
        ∀ i p, BackupStep.saveBlob i p ∈ saves → t.Asked p.id := by
  induction hrun with
  | refl s => exact ⟨h, rfl, fun _ => id, nofun⟩
  | @next s u t a as hok hstep _ ih =>
      have hgathers := saves_gathers (hsaves a (List.mem_cons_self ..))
      have hu := h.step hgathers hok hstep
      have hindexes := (proceeds hgathers hok hstep).indexes
      obtain ⟨ht, hindexes', hasked, hcalls⟩ :=
        ih hu fun b hb => hsaves b (List.mem_cons_of_mem _ hb)
      refine ⟨ht, hindexes'.trans hindexes, ?_, fun i p hmem => ?_⟩
      · exact fun id hid => hasked id (hid.step hgathers hok hstep)
      rcases List.mem_cons.mp hmem with rfl | hmem
      · exact hasked p.id (asked_saveBlob hstep)
      · exact hcalls i p hmem

end Moves

/-- `packs` is what an index object has to list besides the packs that were adopted before. -/
structure Complete (r₀ : BackupRun ι) (s : SaveRun ι) (packs : List PackEntries) : Prop where
  single : s.stored.Nodup
  fresh : ∀ id ∈ s.stored, ¬ r₀.repo.index.has id = true
  granted : s.granted.Nodup ∧ ∀ id, id ∈ s.granted ↔ id ∈ s.stored
  known : ∀ answer ∈ s.answers, r₀.repo.index.has answer.1 = true ∨ answer.1 ∈ s.stored
  kept : ∀ pack ∈ s.uploads, s.run.store.packs[pack.id]? = some pack
  listed : ∃ uploads : List Pack, uploads.Perm s.uploads ∧
    packs = r₀.repo.state.newPacks ++ uploads.map Pack.listing

theorem Once.complete {r₀ : BackupRun ι} {s : SaveRun ι} (h : s.Once r₀)
    (hbare : ∀ c, (s.run.calls c).Bare) (hwriter : s.run.repo.state.writer = none) :
    s.Complete r₀ s.run.repo.state.newPacks := by
  have hwaiting : s.waiting = [] := by
    unfold waiting
    rw [hwriter]
    rfl
  have hpresent : ∀ id, s.Present id ↔ id ∈ s.stored := by
    intro id
    unfold Present
    simp only [hwaiting, List.not_mem_nil, (hbare _).going, exists_false, or_false]
  have hgranted := h.granted.all_settled fun c => (hbare c).claim
  obtain ⟨settled, hsettled, hcredited⟩ := h.listed
  have hlisted := hcredited.all_settled fun c => (hbare c).hand
  constructor
  · exact h.placed.nodup.sublist (List.sublist_append_left ..)
  · exact fun id hid => h.placed.fresh id (.inl hid)
  · exact ⟨h.granted.nodup, fun id => (hgranted id).symm.trans (hpresent id)⟩
  · exact fun answer hanswer => (h.known answer hanswer).imp_right (hpresent answer.1).mp
  · exact h.kept
  · refine ⟨settled, ?_, hsettled⟩
    exact (List.perm_ext_iff_of_nodup hcredited.nodup h.distinct.of_map).mpr
      fun pack => (hlisted pack).symm

/-- `flush` has written the packs to one index object, if there are any. -/
def Written (r₀ : BackupRun ι) (s : SaveRun ι) (packs : List PackEntries) : Prop :=
  packs = [] ∧ s.run.store.indexes = r₀.store.indexes ∨
    ∃ key, key ∉ r₀.store.indexes ∧ s.run.store.indexes = r₀.store.indexes.insert key packs

inductive Closing (r₀ : BackupRun ι) (s : SaveRun ι) : Prop where
  | collecting (honce : s.Once r₀)
      (hcollects : (s.run.calls none).Collects s.run.repo.state.writer)
      (hindexes : s.run.store.indexes = r₀.store.indexes)
  | indexing (late : Bool) (packs : List PackEntries)
      (hcall : s.run.calls none = .indexing late packs) (hcomplete : s.Complete r₀ packs)
      (hindexes : s.run.store.indexes = r₀.store.indexes)
  | flushed (packs : List PackEntries) (hcall : s.run.calls none = .idle (some (.ok .flushed)))
      (hcomplete : s.Complete r₀ packs) (hwritten : s.Written r₀ packs)

/-- All `save_blob` calls have returned. -/
def Returned (s : SaveRun ι) : Prop := ∀ i, ∃ result, s.run.calls (some i) = .idle result

section Closing

variable [DecidableEq ι] {r₀ : BackupRun ι} {s t : SaveRun ι}

theorem Closing.gathers {a : BackupStep ι} (honce : s.Once r₀)
    (hindexes : s.run.store.indexes = r₀.store.indexes) (hgathers : a.gathers = true)
    (hok : s.Succeeds a) (hstep : s.step a = some t)
    (hcollects : (t.run.calls none).Collects t.run.repo.state.writer) : t.Closing r₀ :=
  .collecting (honce.step hgathers hok hstep) hcollects
    ((proceeds hgathers hok hstep).indexes.trans hindexes)

omit [DecidableEq ι] in
theorem Complete.of_same {packs : List PackEntries} {r' : BackupRun ι} (h : s.Complete r₀ packs)
    (hpacks : r'.store.packs = s.run.store.packs) :
    Complete r₀ ⟨r', s.uploads, s.answers⟩ packs := by
  refine { h with kept := ?_ }
  intro pack hpack
  change r'.store.packs[pack.id]? = some pack
  rw [hpacks]
  exact h.kept pack hpack

theorem Closing.takeNew {late : Bool} (honce : s.Once r₀) (hreturned : s.Returned)
    (hindexes : s.run.store.indexes = r₀.store.indexes)
    (hcall : s.run.calls none = .flushed late) (hwriter : s.run.repo.state.writer = none)
    (hok : ∀ e, (s.run.takeNew late).calls none ≠ .idle (some (.error e))) :
    (s.record none (s.run.takeNew late)).Closing r₀ := by
  have hbare : ∀ c, (s.run.calls c).Bare := by
    intro c
    cases c with
    | none =>
        rw [hcall]
        trivial
    | some i =>
        obtain ⟨result, hidle⟩ := hreturned i
        rw [hidle]
        trivial
  have hcomplete := honce.complete hbare hwriter
  unfold BackupRun.takeNew at hok ⊢
  split_ifs at hok ⊢ with hinflight hnil
  · exact absurd BackupRun.goto_self (hok _)
  · rw [hnil] at hcomplete
    unfold BackupRun.flushSucceeds BackupRun.returns
    rw [record_goto]
    exact .flushed [] BackupRun.goto_self (hcomplete.of_same rfl) (.inl ⟨rfl, hindexes⟩)
  · rw [record_goto]
    exact .indexing late _ BackupRun.goto_self (hcomplete.of_same rfl) hindexes

omit [DecidableEq ι] in
theorem Closing.collecting_of (h : s.Closing r₀)
    (hindexing : ∀ late packs, s.run.calls none ≠ .indexing late packs)
    (hflushed : s.run.calls none ≠ .idle (some (.ok .flushed))) :
    s.Once r₀ ∧ (s.run.calls none).Collects s.run.repo.state.writer ∧
      s.run.store.indexes = r₀.store.indexes := by
  cases h with
  | collecting honce hcollects hindexes => exact ⟨honce, hcollects, hindexes⟩
  | indexing late packs hcall => exact absurd hcall (hindexing late packs)
  | flushed packs hcall => exact absurd hcall hflushed

theorem collects_takeOpen {r : BackupRun ι} {late : Bool}
    (hok : ∀ e, (r.takeOpen late).calls none ≠ .idle (some (.error e))) :
    ((r.takeOpen late).calls none).Collects (r.takeOpen late).repo.state.writer := by
  unfold BackupRun.takeOpen at hok ⊢
  dsimp only at hok ⊢
  split at hok
  · rw [BackupRun.goto_self]
    rfl
  · split at hok
    · rw [BackupRun.goto_self]
      rfl
    · exact absurd BackupRun.goto_self (hok _)

/-- The sections of a `flush` up to its index object come before it has one. -/
theorem gathering {r r' : BackupRun ι} {a : BackupStep ι} (htakes : r.Takes a r')
    (hflushes : a.flushes = true) (hgathers : a.gathers = true) :
    (∀ late packs, r.calls none ≠ .indexing late packs) ∧
      r.calls none ≠ .idle (some (.ok .flushed)) := by
  cases htakes with
  | takeOpen hc => simp [hc]
  | putPack hc hfresh =>
      obtain rfl := Option.isNone_iff_eq_none.mp hflushes
      simp [hc]
  | addPack hc =>
      obtain rfl := Option.isNone_iff_eq_none.mp hflushes
      simp [hc]
  | settle hc =>
      obtain rfl := Option.isNone_iff_eq_none.mp hflushes
      simp [hc]
  | _ => first | (cases hflushes; done) | cases hgathers

theorem collects_takes {r r' : BackupRun ι} {a : BackupStep ι} (htakes : r.Takes a r')
    (hflushes : a.flushes = true) (hgathers : a.gathers = true) (hdone : a.failed = false)
    (hok : ∀ e, r'.calls none ≠ .idle (some (.error e)))
    (hcollects : (r.calls none).Collects r.repo.state.writer) :
    (r'.calls none).Collects r'.repo.state.writer := by
  cases htakes with
  | takeOpen hc => exact collects_takeOpen hok
  | @putPack c uploader pack outcome hc hfresh =>
      obtain rfl := Option.isNone_iff_eq_none.mp hflushes
      rw [hc] at hcollects
      cases outcome with
      | failed message kept => cases hdone
      | done =>
          cases uploader with
          | saveBlob id added => cases hcollects
          | flush late =>
              unfold BackupRun.putPack
              rw [BackupRun.goto_self]
              exact hcollects
  | @addPack c uploader pack hc =>
      obtain rfl := Option.isNone_iff_eq_none.mp hflushes
      rw [hc] at hcollects
      cases uploader with
      | saveBlob id added => cases hcollects
      | flush late =>
          unfold BackupRun.addPack
          rw [BackupRun.goto_self]
          exact hcollects
  | @settle c uploader pack hc =>
      obtain rfl := Option.isNone_iff_eq_none.mp hflushes
      rw [hc] at hcollects
      cases uploader with
      | saveBlob id added => cases hcollects
      | flush late =>
          unfold BackupRun.settle
          rw [BackupRun.goto_self]
          exact hcollects
  | _ => first | (cases hflushes; done) | cases hgathers

omit [DecidableEq ι] in
theorem caller_of_flushes {a : BackupStep ι} (hflushes : a.flushes = true) : a.caller = none := by
  cases a with
  | putPack c outcome => exact Option.isNone_iff_eq_none.mp hflushes
  | addPack c => exact Option.isNone_iff_eq_none.mp hflushes
  | settle c => exact Option.isNone_iff_eq_none.mp hflushes
  | _ => first | rfl | cases hflushes

omit [DecidableEq ι] in
theorem Returned.of_others (h : s.Returned)
    (hothers : ∀ i, t.run.calls (some i) = s.run.calls (some i)) : t.Returned := by
  intro i
  obtain ⟨result, hidle⟩ := h i
  exact ⟨result, (hothers i).trans hidle⟩

theorem Closing.collects_step {a : BackupStep ι} (h : s.Closing r₀)
    (hflushes : a.flushes = true) (hgathers : a.gathers = true) (hok : s.Succeeds a)
    (hstep : s.step a = some t) : t.Closing r₀ := by
  have hreturns := hok.2 t hstep
  rw [caller_of_flushes hflushes] at hreturns
  have hbefore := hstep
  unfold SaveRun.step at hstep
  obtain ⟨r', hr', rfl⟩ := Option.map_eq_some_iff.mp hstep
  have htakes := BackupRun.takes_of_step hr'
  obtain ⟨hindexing, hflushed⟩ := gathering htakes hflushes hgathers
  obtain ⟨honce, hcollects, hindexes⟩ := h.collecting_of hindexing hflushed
  exact .gathers honce hindexes hgathers hok hbefore
    (collects_takes htakes hflushes hgathers hok.1 hreturns hcollects)

theorem Closing.putIndex {late : Bool} {packs : List PackEntries} {key : ObjectId}
    (h : s.Closing r₀) (hcall : s.run.calls none = .indexing late packs)
    (hfresh : key ∉ s.run.store.indexes) :
    (s.record none (s.run.putIndex late packs key .done)).Closing r₀ := by
  cases h with
  | collecting honce hcollects =>
      rw [hcall] at hcollects
      cases hcollects
  | flushed packs hidle =>
      rw [hcall] at hidle
      cases hidle
  | indexing late' packs' hcall' hcomplete hindexes =>
      rw [hcall] at hcall'
      cases hcall'
      rw [hindexes] at hfresh
      unfold BackupRun.putIndex BackupRun.flushSucceeds BackupRun.returns
      rw [record_goto]
      refine .flushed packs BackupRun.goto_self (hcomplete.of_same rfl) (.inr ?_)
      refine ⟨key, hfresh, ?_⟩
      rw [← hindexes]
      rfl

theorem takeNew_others {r : BackupRun ι} {late : Bool} (i : ι) :
    (r.takeNew late).calls (some i) = r.calls (some i) := by
  unfold BackupRun.takeNew
  split_ifs
  all_goals exact BackupRun.goto_of_ne nofun

theorem Closing.step {a : BackupStep ι} (h : s.Closing r₀) (hreturned : s.Returned)
    (hflushes : a.flushes = true) (hok : s.Succeeds a) (hstep : s.step a = some t) :
    t.Closing r₀ ∧ t.Returned := by
  cases hgathers : a.gathers with
  | true =>
      refine ⟨h.collects_step hflushes hgathers hok hstep, hreturned.of_others fun i => ?_⟩
      refine (proceeds hgathers hok hstep).others (some i) ?_
      rw [caller_of_flushes hflushes]
      exact nofun
  | false =>
      have hreturns := hok.2 t hstep
      rw [caller_of_flushes hflushes] at hreturns
      have hdone := hok.1
      unfold SaveRun.step at hstep
      obtain ⟨r', hr', rfl⟩ := Option.map_eq_some_iff.mp hstep
      cases BackupRun.takes_of_step hr' with
      | takeNew hc =>
          obtain ⟨honce, hcollects, hindexes⟩ := h.collecting_of (by simp [hc]) (by simp [hc])
          rw [hc] at hcollects
          exact ⟨.takeNew honce hreturned hindexes hc hcollects hreturns,
            hreturned.of_others takeNew_others⟩
      | @putIndex late packs key outcome hc hfresh =>
          cases outcome with
          | failed message kept => cases hdone
          | done =>
              exact ⟨h.putIndex hc hfresh, hreturned.of_others fun i => BackupRun.goto_of_ne nofun⟩
      | _ => first | (cases hflushes; done) | cases hgathers

theorem answers_grow {steps : List (BackupStep ι)} (hrun : Runs step Succeeds s steps t) :
    ∀ answer ∈ s.answers, answer ∈ t.answers := by
  apply hrun.relates (R := fun s t => ∀ answer ∈ s.answers, answer ∈ t.answers)
  · exact fun _ _ => id
  · exact fun hst htu answer hanswer => htu answer (hst answer hanswer)
  · intro s a t _ hstep answer hanswer
    unfold SaveRun.step at hstep
    obtain ⟨r', -, rfl⟩ := Option.map_eq_some_iff.mp hstep
    exact List.mem_append_right _ hanswer

omit [DecidableEq ι] in
theorem Asked.answered {id : ObjectId} (h : s.Asked id)
    (hreturned : ∀ c, ∃ result, s.run.calls c = .idle result) :
    ∃ added, (id, added) ∈ s.answers := by
  rcases h with h | ⟨c, hc⟩
  · exact h
  · obtain ⟨result, hidle⟩ := hreturned c
    rw [hidle] at hc
    cases hc

theorem flushes_closing {flushes : List (BackupStep ι)} (h : s.Closing r₀)
    (hreturned : s.Returned) (hrun : Runs step Succeeds s flushes t)
    (hflushes : ∀ a ∈ flushes, a.flushes = true) : t.Closing r₀ := by
  induction hrun with
  | refl s => exact h
  | next hok hstep _ ih =>
      obtain ⟨hclosing, hreturned'⟩ :=
        h.step hreturned (hflushes _ (List.mem_cons_self ..)) hok hstep
      exact ih hclosing hreturned' fun b hb => hflushes b (List.mem_cons_of_mem _ hb)

theorem flush_begins (honce : s.Once r₀) (hindexes : s.run.store.indexes = r₀.store.indexes)
    (hreturned : s.Returned) (hok : s.Succeeds .flush) (hstep : s.step .flush = some t) :
    t.Closing r₀ ∧ t.Returned := by
  have hothers : ∀ i, t.run.calls (some i) = s.run.calls (some i) :=
    fun i => (proceeds rfl hok hstep).others (some i) (Option.some_ne_none i)
  refine ⟨.gathers honce hindexes rfl hok hstep ?_, hreturned.of_others hothers⟩
  have hreturns := hok.2 t hstep
  unfold SaveRun.step at hstep
  obtain ⟨r', hr', rfl⟩ := Option.map_eq_some_iff.mp hstep
  cases BackupRun.takes_of_step hr' with
  | flush hc =>
      change ∀ e, (s.run.ifWritable _).calls none ≠ _ at hreturns
      change ((s.run.ifWritable _).calls none).Collects _
      unfold BackupRun.ifWritable at hreturns ⊢
      split at hreturns
      · exact absurd BackupRun.goto_self (hreturns _)
      · rw [BackupRun.goto_self]
        trivial

/-- Whatever the order of the sections of the `save_blob` calls: once all have returned and `flush`
has succeeded, with no failure on the way, each blob that the index did not have is in one entry of
the uploaded packs, one call for it has returned true, and one index object, if there is any pack,
lists the uploaded packs besides those that were adopted before. -/
theorem saves_store_once {start saved flushed : SaveRun ι} {saves flushes : List (BackupStep ι)}
    (hrests : start.Rests) (hsaves : Runs step Succeeds start saves saved)
    (hsave : ∀ a ∈ saves, a.saves = true)
    (hreturned : ∀ c, ∃ result, saved.run.calls c = .idle result)
    (hflush : Runs step Succeeds saved (.flush :: flushes) flushed)
    (hflushes : ∀ a ∈ flushes, a.flushes = true)
    (hdone : flushed.run.calls none = .idle (some (.ok .flushed))) :
    (∀ i p, BackupStep.saveBlob i p ∈ saves → start.run.repo.index.has p.id = false →
      flushed.stored.count p.id = 1 ∧ flushed.granted.count p.id = 1) ∧
    (∀ pack ∈ flushed.uploads, flushed.run.store.packs[pack.id]? = some pack) ∧
    ∃ uploads : List Pack, uploads.Perm flushed.uploads ∧
      Written start.run flushed (start.run.repo.state.newPacks ++ uploads.map Pack.listing) := by
  obtain ⟨honce, hindexes, -, hasked⟩ := saves_once hrests.once hsaves hsave
  have hwaits : saved.Returned := fun i => hreturned (some i)
  have hgrow := answers_grow hflush
  cases hflush with
  | next hok hstep hrest =>
      obtain ⟨hclosing, hwaits'⟩ := flush_begins honce hindexes hwaits hok hstep
      cases flushes_closing hclosing hwaits' hrest hflushes with
      | collecting honce hcollects =>
          rw [hdone] at hcollects
          cases hcollects
      | indexing late packs hcall =>
          rw [hdone] at hcall
          cases hcall
      | flushed packs hcall hcomplete hwritten =>
          refine ⟨fun i p hcalled hnew => ?_, hcomplete.kept, ?_⟩
          · obtain ⟨added, hanswer⟩ := (hasked i p hcalled).answered hreturned
            have hstored : p.id ∈ flushed.stored := by
              refine (hcomplete.known _ (hgrow _ hanswer)).resolve_left ?_
              rw [hnew]
              exact Bool.false_ne_true
            exact ⟨List.count_eq_one_of_mem hcomplete.single hstored,
              List.count_eq_one_of_mem hcomplete.granted.1 ((hcomplete.granted.2 _).mpr hstored)⟩
          · obtain ⟨uploads, hperm, hpacks⟩ := hcomplete.listed
            exact ⟨uploads, hperm, hpacks ▸ hwritten⟩

end Closing

section Witness

def succeeds [DecidableEq ι] (s : SaveRun ι) (a : BackupStep ι) : Bool :=
  !a.failed && (s.step a).all fun t =>
    match t.run.calls a.caller with
    | .idle (some (.error _)) => false
    | _ => true

theorem succeeds_of_check [DecidableEq ι] {s : SaveRun ι} {a : BackupStep ι}
    (hcheck : s.succeeds a = true) : s.Succeeds a := by
  unfold succeeds at hcheck
  rw [Bool.and_eq_true, Bool.not_eq_true'] at hcheck
  refine ⟨hcheck.1, fun t hstep e hfailed => ?_⟩
  have hall := hcheck.2
  rw [hstep, Option.all_some, hfailed] at hall
  cases hall

def idle : Call → Bool
  | .idle _ => true
  | _ => false

theorem idle_of_check {call : Call} (hcheck : idle call = true) : ∃ result, call = .idle result := by
  cases call <;> first | exact ⟨_, rfl⟩ | cases hcheck

def flushDone : Call → Bool
  | .idle (some (.ok .flushed)) => true
  | _ => false

theorem flushed_of_check {call : Call} (hcheck : flushDone call = true) :
    call = .idle (some (.ok .flushed)) := by
  unfold flushDone at hcheck
  split at hcheck
  · rfl
  · cases hcheck

def openedHandle : SaveRun Bool where
  run :=
    { repo := ⟨Index.new, 1, .default⟩
      store := ⟨∅, ∅, ∅⟩
      calls := fun _ => .idle none
      history := ⟨[], [], false, [], []⟩ }
  uploads := []
  answers := []

def chunkText : Plaintext := ⟨.data, 5, 3, .ok (3, .none)⟩

def savedTwice : List (BackupStep Bool) :=
  [.saveBlob false chunkText, .saveBlob true chunkText, .look false, .look true, .place false 7,
    .place true 8, .putPack (some false) .done, .addPack (some false), .settle (some false)]

def flushSections : List (BackupStep Bool) := [.takeOpen, .takeNew, .putIndex 9 .done]

theorem savedTwice_runs :
    (execute (checked succeeds step) openedHandle savedTwice).isSome := by decide +kernel

def twiceSaved : SaveRun Bool :=
  (execute (checked succeeds step) openedHandle savedTwice).get savedTwice_runs

theorem flushSections_runs :
    (execute (checked succeeds step) twiceSaved (.flush :: flushSections)).isSome := by
  decide +kernel

def twiceFlushed : SaveRun Bool :=
  (execute (checked succeeds step) twiceSaved (.flush :: flushSections)).get flushSections_runs

theorem saves_store_once_twice :
    twiceFlushed.stored.count 5 = 1 ∧ twiceFlushed.granted.count 5 = 1 := by
  have hsaves : Runs step Succeeds openedHandle savedTwice twiceSaved :=
    checked_runs (fun _ _ => succeeds_of_check) (Option.some_get _).symm
  have hflush : Runs step Succeeds twiceSaved (.flush :: flushSections) twiceFlushed :=
    checked_runs (fun _ _ => succeeds_of_check) (Option.some_get _).symm
  have hreturned : ∀ c, idle (twiceSaved.run.calls c) = true := by
    rintro (_ | _ | _)
    · decide +kernel
    · decide +kernel
    · decide +kernel
  have hdone : flushDone (twiceFlushed.run.calls none) = true := by decide +kernel
  refine (saves_store_once ?_ hsaves (by decide) ?_ hflush (by decide)
    (flushed_of_check hdone)).1 false chunkText ?_ ?_
  · exact ⟨⟨rfl, rfl⟩, fun _ => ⟨none, rfl⟩, rfl, rfl⟩
  · exact fun c => idle_of_check (hreturned c)
  · exact List.mem_cons_self ..
  · decide +kernel

end Witness

end SaveRun

end FileMirror
