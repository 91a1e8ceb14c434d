import FileMirror.HeldBlobs

set_option autoImplicit false

namespace FileMirror

open Transitions Flights

namespace BackupRun

variable {ι : Type*} [DecidableEq ι] {s₀ : BackupStore} {r t : BackupRun ι} {c : Option ι}
  {call : Call} {id : ObjectId} {p : PackEntries} {pack : Pack} {late : Bool}

theorem Ordered.saveBlob {p : Plaintext} (h : r.Ordered s₀) (hplain : (r.calls c).Plain) :
    (r.saveBlob c p).Ordered s₀ := by
  unfold BackupRun.saveBlob
  split_ifs with hhas
  · exact h.acks (.inl (h.indexed p.id hhas)) hplain
  · exact h.moves hplain ⟨rfl, rfl, trivial⟩ (fun _ _ hw => by cases hw) trivial

theorem Ordered.look {p : Plaintext} (h : r.Ordered s₀) (hplain : (r.calls c).Plain) :
    (r.look c p).Ordered s₀ := by
  unfold BackupRun.look
  split
  · exact h.returns hplain
  · split_ifs with hpending
    · exact h.acks (pending_held hpending) hplain
    · exact h.moves hplain ⟨rfl, rfl, trivial⟩ (fun _ _ hw => by cases hw) trivial

theorem Ordered.place {p : Plaintext} {packId : ObjectId} (h : r.Ordered s₀)
    (hplain : (r.calls c).Plain) (hc : c ≠ none) : (r.place c p packId).Ordered s₀ := by
  unfold BackupRun.place
  split
  · exact h.returns hplain
  rename_i b hb
  split
  · exact h.returns hplain
  split_ifs with hknown
  · obtain hhas | hpending := Bool.or_eq_true_iff.mp hknown
    · exact h.acks (.inl (h.indexed p.id hhas)) hplain
    · exact h.acks (pending_held hpending) hplain
  obtain ⟨_, hpending⟩ := not_or.mp (mt Bool.or_eq_true_iff.mpr hknown)
  obtain ⟨hgrounded, hnot⟩ := not_pending hpending
  obtain ⟨hmany, hroom⟩ := h.small_getD packId
  have hids := waiting_getD (r := r) packId
  generalize r.repo.state.writer.getD (.new packId) = w at hids hmany hroom
  dsimp only
  split
  · have hsame : (r.setState { r.repo.state with writer := some w }).Ordered s₀ := by
      refine h.setWriter ?_ ?_ ?_
      · intro id hid
        rw [← hids] at hid
        exact hid
      · change Tracked r.flights r.lostIds w.ids r.repo.state.inflight
        rw [hids]
        exact h.tracked
      · intro w' hw'
        cases hw'
        exact ⟨hmany, hroom⟩
    exact hsame.returns hplain
  rename_i added w' hpush
  have hid : b.id = p.id := SealedBlob.seal_id hb
  obtain ⟨_, hids', hsize', hcount'⟩ := Writer.push_new (by rw [hid, hids]; exact hgrounded) hpush
  have hlong := b.le_sealedLen
  have htracked : Tracked r.flights r.lostIds w'.ids r.repo.state.inflight := by
    rw [hids', hids, hid]
    exact h.tracked.join hnot
  have hgrows : ∀ id ∈ r.waiting, id ∈ w'.ids := by
    intro id hmem
    rw [hids', hids]
    exact List.mem_append_left _ hmem
  have hown : p.id ∈ w'.ids := by
    rw [hids', hid]
    exact List.mem_append_right _ (List.mem_singleton_self _)
  split_ifs with hfull
  · have hne : w'.entries ≠ [] := fun hnil => by
      rw [hnil] at hcount'
      cases hcount'
    have hlen : 35 * w'.entries.length ≤ targetSize + 35 := by
      have htarget := h.target
      obtain hroom | hempty := hroom
      · omega
      · rw [hcount', hempty, List.length_nil]
        omega
    obtain ⟨pack, hfinish, _, hentries⟩ := Writer.finish_ok hne hlen
    have hpack : pack.ids = w'.ids := congrArg (List.map Entry.id) hentries
    rw [hfinish]
    refine h.departs hplain ?_ ?_ ?_ ?_ ?_
    · rw [hpack]
      exact htracked
    · rw [hpack]
      exact hgrows
    · rw [hpack]
      exact List.ne_nil_of_mem hown
    · change p.id ∈ pack.ids
      rw [hpack]
      exact hown
    · exact fun hnone => absurd hnone hc
  · have hplaced : (r.setState { r.repo.state with writer := some w' }).Ordered s₀ := by
      refine h.setWriter hgrows htracked ?_
      intro w'' hw''
      cases hw''
      constructor
      · omega
      · exact .inl (Nat.lt_of_not_le hfull)
    exact hplaced.acks (.inr hown) hplain

theorem Ordered.abandons {next : Call} (h : r.Ordered s₀)
    (hhand : (r.calls c).inHand = []) (hfails : (r.calls c).fails = false)
    (hnext : next.flight = none ∧ next.stored = [] ∧ next.Sound)
    (hwrites : c = none → ∀ late, next.writes = some late →
      r.history.indexLost = false ∧ (late = true → r.history.lost ≠ []))
    (hdue : next.Due (r.Covered s₀)) :
    (r.goto c next).Ordered s₀ := by
  obtain ⟨hnone, hstored, hsound⟩ := hnext
  refine h.goto ?_ ?_ hsound ?_ ?_ hwrites ?_
  · rw [hnone]
    exact h.tracked.drop
  · rw [hstored]
    exact fun p hp => absurd hp List.not_mem_nil
  · intro id hid
    refine hid.goto fun p hp => ?_
    rw [hhand] at hp
    cases hp
  · rw [hfails]
    nofun
  · exact hdue

theorem Ordered.carries {next : Call} (h : r.Ordered s₀)
    (hflight : next.flight = (r.calls c).flight) (hwrites : next.writes = (r.calls c).writes)
    (hhand : (r.calls c).inHand = []) (hfails : (r.calls c).fails = false)
    (hstored : ∀ p ∈ next.stored, r.store.HasPack p) (hsound : next.Sound)
    (hdue : next.Due (r.Covered s₀)) :
    (r.goto c next).Ordered s₀ := by
  refine h.goto (h.same_flight hflight) hstored hsound ?_ ?_ ?_ ?_
  · intro id hid
    refine hid.goto fun p hp => ?_
    rw [hhand] at hp
    cases hp
  · rw [hfails]
    nofun
  · rintro rfl late hlate
    exact h.unlost late (hwrites ▸ hlate)
  · exact hdue

theorem Ordered.putPack {uploader : Uploader} {outcome : PutOutcome} (h : r.Ordered s₀)
    (hc : r.calls c = .uploading uploader pack) (hfresh : pack.id ∉ r.store.packs) :
    (r.putPack c uploader pack outcome).Ordered s₀ := by
  have hstored : (r.storePack pack).Ordered s₀ := h.grows (grows_storePack hfresh)
  have hsound : (Call.uploading uploader pack).Sound := hc ▸ h.sound c
  cases outcome with
  | done =>
      have hcall : (r.storePack pack).calls c = .uploading uploader pack := hc
      refine hstored.carries ?_ ?_ ?_ ?_ ?_ ?_ ?_
      · rw [hcall]
        rfl
      · rw [hcall]
        cases uploader <;> rfl
      · rw [hcall]
        rfl
      · rw [hcall]
        rfl
      · intro p hp
        rw [List.mem_singleton.mp hp]
        exact hasPack_storePack
      · cases uploader with
        | saveBlob id added => exact hsound
        | flush late => trivial
      · trivial
  | failed message kept =>
      let kept' := if kept then r.storePack pack else r
      have hkept : kept'.Ordered s₀ ∧ kept'.calls = r.calls := by
        cases kept with
        | false => exact ⟨h, rfl⟩
        | true => exact ⟨hstored, rfl⟩
      obtain ⟨hordered, hcalls⟩ := hkept
      have hcall : kept'.calls c = .uploading uploader pack := hcalls ▸ hc
      let failing := Call.failing s!"uploading pack {short pack.id}: {message}"
      have hgone : (kept'.goto c failing).Ordered s₀ := by
        refine hordered.abandons ?_ ?_ ⟨rfl, rfl, trivial⟩ ?_ ?_
        · rw [hcall]
          rfl
        · rw [hcall]
          rfl
        · rintro _ late ⟨⟩
        · trivial
      have hflight : kept'.flights c = some pack.ids := by
        unfold flights
        rw [hcall]
        rfl
      refine { hgone with
        tracked := ?_
        unlost := ?_ }
      · have hlose := hordered.tracked.lose hflight
        change Tracked (kept'.goto c failing).flights (pack.ids :: kept'.lostIds) _ _
        rw [flights_goto]
        exact hlose
      · intro late hlate
        exact ⟨(hgone.unlost late hlate).1, fun _ => List.cons_ne_nil _ _⟩

theorem Ordered.addPack {uploader : Uploader} (h : r.Ordered s₀)
    (hc : r.calls c = .uploaded uploader pack) : (r.addPack c uploader pack).Ordered s₀ := by
  have hindex : (r.setIndex (r.repo.index.addPack pack.listing)).Ordered s₀ := by
    refine h.setIndex fun id hid => .inr (.inl ?_)
    have hflight : r.flights c = some pack.ids := by
      unfold flights
      rw [hc]
      rfl
    exact (h.tracked.carried c pack.ids hflight).2 id hid
  have hcall : (r.setIndex (r.repo.index.addPack pack.listing)).calls c =
    .uploaded uploader pack := hc
  refine hindex.carries ?_ ?_ ?_ ?_ ?_ ?_ ?_
  · rw [hcall]
    rfl
  · rw [hcall]
    cases uploader <;> rfl
  · rw [hcall]
    rfl
  · rw [hcall]
    rfl
  · exact fun p hp => h.stored c p (hc ▸ hp)
  · have hsound : (Call.uploaded uploader pack).Sound := hc ▸ h.sound c
    cases uploader with
    | saveBlob id added => exact hsound
    | flush late => trivial
  · trivial

theorem Ordered.settles {next : Call} (h : r.Ordered s₀)
    (hflight : (r.calls c).flight = some pack.ids) (hlisting : r.store.HasPack pack.listing)
    (hnone : next.flight = none) (hgone : (r.goto c next).Ordered s₀) :
    ((r.goto c next).setState { r.repo.state with
      inflight := r.repo.state.inflight \ pack.ids.toFinset
      newPacks := r.repo.state.newPacks ++ [pack.listing] }).Ordered s₀ := by
  refine hgone.setState ?_ ?_ ?_ ?_ h.small id
  · rw [flights_goto, hnone]
    exact h.tracked.land hflight
  · intro p hp
    obtain hp | hp := List.mem_append.mp hp
    · exact h.listed p hp
    · rw [List.mem_singleton.mp hp]
      exact hlisting
  · rintro id (hid | hid | ⟨p, hp, hid⟩ | hid)
    · exact .inl hid
    · by_cases hown : id ∈ pack.ids
      · refine .inr (.inr (.inl ⟨pack.listing, ?_, hown⟩))
        exact List.mem_append_right _ (List.mem_singleton_self _)
      · refine .inr (.inl (Finset.mem_sdiff.mpr ⟨hid, ?_⟩))
        rw [List.mem_toFinset]
        exact hown
    · exact .inr (.inr (.inl ⟨p, List.mem_append_left _ hp, hid⟩))
    · exact .inr (.inr (.inr hid))
  · exact fun id hid => .inr hid

theorem Ordered.settle {uploader : Uploader} (h : r.Ordered s₀)
    (hc : r.calls c = .indexed uploader pack) : (r.settle c uploader pack).Ordered s₀ := by
  have hflight : (r.calls c).flight = some pack.ids := by
    rw [hc]
    rfl
  have hhand : (r.calls c).inHand = [] := by
    rw [hc]
    rfl
  have hfails : (r.calls c).fails = false := by
    rw [hc]
    rfl
  have hlisting : r.store.HasPack pack.listing := by
    refine h.stored c _ ?_
    rw [hc]
    exact List.mem_singleton_self _
  cases uploader with
  | saveBlob id added =>
      let next := Call.idle (some (.ok (.saved id added)))
      have hgone : (r.goto c next).Ordered s₀ := by
        refine h.abandons hhand hfails ⟨rfl, rfl, trivial⟩ ?_ ?_
        · rintro _ late ⟨⟩
        · trivial
      have hsettled := h.settles hflight hlisting rfl hgone
      have hown : id ∈ pack.ids := by
        have hsound := h.sound c
        rw [hc] at hsound
        exact hsound
      refine hsettled.ack fun other hother => .inl (.inr (.inr (.inl ⟨pack.listing, ?_, ?_⟩)))
      · exact List.mem_append_right _ (List.mem_singleton_self _)
      · rw [List.mem_singleton.mp hother]
        exact hown
  | flush late =>
      refine h.settles hflight hlisting rfl ?_
      refine h.abandons hhand hfails ⟨rfl, rfl, trivial⟩ ?_ ?_
      · rintro rfl late' hlate
        cases hlate
        refine h.unlost late ?_
        rw [hc]
        rfl
      · trivial

theorem Ordered.reportFailure {message : String} (h : r.Ordered s₀)
    (hc : r.calls c = .failing message) : (r.reportFailure c message).Ordered s₀ := by
  have hfail := h.fail message
  have hcall : (r.setState (r.repo.state.fail message)).calls c = .failing message := hc
  refine hfail.goto (hfail.same_flight ?_) ?_ trivial ?_ (fun _ => rfl) ?_ ?_
  · rw [hcall]
    rfl
  · exact fun p hp => absurd hp List.not_mem_nil
  · intro id hid
    refine hid.goto fun p hp => ?_
    rw [hcall] at hp
    cases hp
  · rintro _ late ⟨⟩
  · trivial

theorem Ordered.ifWritable {call : Call} (h : r.Ordered s₀) (hplain : (r.calls none).Plain)
    (hcall : call.flight = none ∧ call.stored = [] ∧ call.Sound)
    (hwrites : call.writes = some r.putFailed)
    (hdue : call.Due (r.Covered s₀)) :
    (r.ifWritable call).Ordered s₀ := by
  unfold BackupRun.ifWritable
  split
  · exact h.returns hplain
  rename_i hfailed
  have hindex : r.history.indexLost = false := by
    rw [← Bool.not_eq_true]
    intro hlost
    have hreported := h.reported hlost
    rw [hfailed, hplain.2.2] at hreported
    obtain hreported | hreported := hreported <;> cases hreported
  refine h.moves hplain hcall ?_ hdue
  intro _ late hlate
  rw [hwrites, Option.some.injEq] at hlate
  refine ⟨hindex, fun htrue => ?_⟩
  rw [← hlate, putFailed, hindex, Bool.or_false, decide_eq_true_eq] at htrue
  exact htrue

theorem Ordered.takeOpen (h : r.Ordered s₀) (hc : r.calls none = .flushing late) :
    (r.takeOpen late).Ordered s₀ := by
  have hplain : (r.calls none).Plain := hc ▸ ⟨rfl, rfl, rfl⟩
  have hlate := h.unlost late (by rw [hc]; rfl)
  have hwrites : ∀ late', some late = some late' →
      r.history.indexLost = false ∧ (late' = true → r.history.lost ≠ []) := by
    rintro late' ⟨⟩
    exact hlate
  unfold BackupRun.takeOpen
  dsimp only
  split
  · rename_i hnone
    have hempty : r.waiting = [] := by
      obtain hnone' | ⟨w, hw⟩ := Option.eq_none_or_eq_some r.repo.state.writer
      · rw [waiting, hnone']
        rfl
      · rw [hw, Option.filter_eq_none_iff] at hnone
        have hentries : w.entries = [] := by simpa using hnone w rfl
        rw [waiting, hw]
        exact congrArg (List.map Entry.id) hentries
    have hclosed : (r.setState { r.repo.state with writer := none }).Ordered s₀ := by
      refine h.setWriter ?_ (hempty ▸ h.tracked) ?_
      · rw [hempty]
        exact fun id hid => hid
      · rintro w ⟨⟩
    exact hclosed.moves hplain ⟨rfl, rfl, trivial⟩ (fun _ => hwrites) trivial
  · rename_i w hw
    obtain ⟨hw, hentries⟩ := Option.filter_eq_some_iff.mp hw
    have hne : w.entries ≠ [] := of_decide_eq_true hentries
    obtain ⟨hmany, hroom⟩ := h.small w hw
    have hlen : 35 * w.entries.length ≤ targetSize + 35 := by
      have htarget := h.target
      have hsize := hroom.resolve_right hne
      omega
    obtain ⟨pack, hfinish, _, hpack⟩ := Writer.finish_ok hne hlen
    have hids : pack.ids = r.waiting := by
      rw [waiting, hw]
      exact congrArg (List.map Entry.id) hpack
    rw [hfinish]
    refine h.departs hplain ?_ ?_ ?_ trivial (fun _ => hwrites)
    · rw [hids]
      exact h.tracked
    · rw [hids]
      exact fun id hid => hid
    · rw [Pack.ids, hpack]
      exact fun hnil => hne (List.map_eq_nil_iff.mp hnil)

theorem Ordered.flushSucceeds (h : r.Ordered s₀) (hlate : late = false)
    (hflight : (r.calls none).flight = none) (hfails : (r.calls none).fails = false)
    (hheld : ∀ id, r.Held s₀ id → (r.goto none (.idle (some (.ok .flushed)))).Held s₀ id) :
    (r.flushSucceeds late).Ordered s₀ := by
  have hidle : (r.goto none (.idle (some (.ok .flushed)))).Ordered s₀ := by
    refine h.goto (h.same_flight hflight.symm) ?_ trivial hheld ?_ ?_ ?_
    · exact fun p hp => absurd hp List.not_mem_nil
    · rw [hfails]
      nofun
    · rintro _ late ⟨⟩
    · trivial
  refine { hidle with flushes := ?_ }
  intro other hother
  obtain rfl | hother := List.mem_cons.mp hother
  · exact hlate
  · exact h.flushes other hother

theorem Ordered.takeNew (h : r.Ordered s₀) (hc : r.calls none = .flushed late) :
    (r.takeNew late).Ordered s₀ := by
  have hplain : (r.calls none).Plain := hc ▸ ⟨rfl, rfl, rfl⟩
  have hwrites : (r.calls none).writes = some late := by
    rw [hc]
    rfl
  unfold BackupRun.takeNew
  split_ifs with hinflight hnew
  · exact h.returns hplain
  · refine h.flushSucceeds (h.timely hwrites (not_not.mp hinflight)) hplain.1 hplain.2.2 ?_
    intro id hid
    refine hid.goto fun p hp => ?_
    rw [hplain.2.1] at hp
    cases hp
  · have hgoto : (r.goto none (.indexing late r.repo.state.newPacks)).Ordered s₀ := by
      refine h.goto (h.same_flight hplain.1.symm) h.listed trivial ?_ ?_ ?_ ?_
      · intro id hid
        refine hid.goto fun p hp => ?_
        rw [hplain.2.1] at hp
        cases hp
      · rw [hplain.2.2]
        nofun
      · rintro _ late' ⟨⟩
        exact h.unlost late hwrites
      · exact h.timely hwrites (not_not.mp hinflight)
    refine hgoto.setState hgoto.tracked ?_ ?_ (fun _ hid => .inr hid) h.small id
    · exact fun p hp => absurd hp List.not_mem_nil
    · rintro id (hid | hid | ⟨p, hp, hid⟩ | hid)
      · exact .inl hid
      · exact .inr (.inl hid)
      · exact .inr (.inr (.inr (.inl ⟨p, hp, hid⟩)))
      · exact .inr (.inr (.inr hid))

theorem Ordered.loseIndex {message : String} (h : r.Ordered s₀)
    (hflight : (r.calls none).flight = none) :
    (r.loseIndex.goto none (.failing message)).Ordered s₀ := by
  refine { h with
    tracked := ?_
    stored := ?_
    sound := ?_
    acked := ?_
    indexed := ?_
    reported := ?_
    unlost := ?_
    due := ?_ }
  · rw [flights_goto]
    have hsame : (Call.failing message).flight = (r.calls none).flight := hflight.symm
    exact h.same_flight hsame
  · intro d p hp
    by_cases hd : d = none
    · rw [hd, goto_self] at hp
      cases hp
    · rw [goto_of_ne hd] at hp
      exact h.stored d p hp
  · intro d
    by_cases hd : d = none
    · rw [hd, goto_self]
      trivial
    · rw [goto_of_ne hd]
      exact h.sound d
  · exact fun id _ => .inl (.inr (.inr (.inr (.inr rfl))))
  · exact fun id _ => .inr (.inr (.inr (.inr rfl)))
  · intro _
    rw [goto_self]
    exact .inr rfl
  · rw [goto_self]
    rintro late' ⟨⟩
  · rw [goto_self]
    trivial

theorem Ordered.putIndex {packs : List PackEntries} {outcome : PutOutcome} (h : r.Ordered s₀)
    (hc : r.calls none = .indexing late packs) (hfresh : id ∉ r.store.indexes) :
    (r.putIndex late packs id outcome).Ordered s₀ := by
  have hwrites : (r.calls none).writes = some late := by
    rw [hc]
    rfl
  have hstored : (r.storeIndex id packs).Ordered s₀ := h.grows (grows_storeIndex hfresh)
  have hlate : late = false := by
    have hdue := h.due
    rw [hc] at hdue
    exact hdue
  have hlisted : ∀ p ∈ packs, r.store.HasPack p := by
    intro p hp
    refine h.stored none p ?_
    rw [hc]
    exact hp
  cases outcome with
  | done =>
      have hcall : (r.storeIndex id packs).calls none = .indexing late packs := hc
      refine hstored.flushSucceeds hlate ?_ ?_ ?_
      · rw [hcall]
        rfl
      · rw [hcall]
        rfl
      · rintro other (hid | hid | hid | ⟨p, hp, hid⟩ | hid)
        · exact .inl hid
        · exact .inr (.inl hid)
        · exact .inr (.inr (.inl hid))
        · rw [hcall] at hp
          refine .inl (.inl ⟨id, packs, ?_, p, hp, hid, (hlisted p hp).holds hid⟩)
          change (r.store.indexes.insert id packs)[id]? = some packs
          rw [IdMap.getElem?_insert, if_pos rfl]
        · exact .inr (.inr (.inr (.inr hid)))
  | failed message kept =>
      let kept' := if kept then r.storeIndex id packs else r
      have hkept : kept'.Ordered s₀ ∧ kept'.calls = r.calls := by
        cases kept with
        | false => exact ⟨h, rfl⟩
        | true => exact ⟨hstored, rfl⟩
      obtain ⟨hordered, hcalls⟩ := hkept
      have hcall : kept'.calls none = .indexing late packs := hcalls ▸ hc
      exact hordered.loseIndex (by rw [hcall]; rfl)

theorem Ordered.checkFlushed {snapshot : BackupSnapshot} (h : r.Ordered s₀)
    (hc : r.calls none = .publishing late snapshot) :
    (r.checkFlushed late snapshot).Ordered s₀ := by
  have hplain : (r.calls none).Plain := hc ▸ ⟨rfl, rfl, rfl⟩
  have hwrites : (r.calls none).writes = some late := by
    rw [hc]
    rfl
  unfold BackupRun.checkFlushed
  split_ifs with hunflushed
  · exact h.returns hplain
  split
  · exact h.returns hplain
  obtain ⟨hopen, hnew⟩ := not_or.mp (mt Bool.or_eq_true_iff.mpr hunflushed)
  obtain ⟨hwriter, hinflight⟩ := not_or.mp (mt Bool.or_eq_true_iff.mpr hopen)
  rw [decide_eq_true_eq, not_not] at hnew hinflight
  have htimely := h.timely hwrites hinflight
  have hwaiting : r.waiting = [] := by
    obtain hnone | ⟨w, hw⟩ := Option.eq_none_or_eq_some r.repo.state.writer
    · rw [waiting, hnone]
      rfl
    · have hentries : w.entries = [] := by simpa [hw] using hwriter
      rw [waiting, hw]
      exact congrArg (List.map Entry.id) hentries
  have howed : ∀ id ∈ r.history.acked, r.Covered s₀ id := by
    intro id hid
    obtain (hid | hid | ⟨p, hp, _⟩ | ⟨p, hp, _⟩ | hlost) | hid := h.acked id hid
    · exact hid
    · rw [hinflight] at hid
      cases hid
    · rw [hnew] at hp
      cases hp
    · rw [hplain.2.1] at hp
      cases hp
    · rw [(h.unlost late hwrites).1] at hlost
      cases hlost
    · rw [hwaiting] at hid
      cases hid
  refine h.moves hplain ⟨rfl, rfl, trivial⟩ ?_ ?_
  · rintro _ late' ⟨⟩
    exact h.unlost late hwrites
  · exact ⟨htimely, howed⟩

theorem Ordered.putSnapshot {snapshot : BackupSnapshot} {owed : List ObjectId}
    {outcome : PutOutcome} (h : r.Ordered s₀) (hc : r.calls none = .writing late snapshot owed) :
    (r.putSnapshot late snapshot owed id outcome).Ordered s₀ := by
  have hplain : (r.calls none).Plain := hc ▸ ⟨rfl, rfl, rfl⟩
  have hstored : (r.storeSnapshot id snapshot).Ordered s₀ :=
    h.grows ⟨fun _ _ hkey => hkey, fun _ _ hkey => hkey⟩
  cases outcome with
  | done =>
      have hpublished : ((r.storeSnapshot id snapshot).publish late owed).Ordered s₀ := by
        refine { hstored with published := ?_ }
        intro entry hentry
        obtain rfl | hentry := List.mem_cons.mp hentry
        · have hdue := h.due
          rw [hc] at hdue
          exact hdue
        · exact h.published entry hentry
      exact hpublished.returns hplain
  | failed message kept =>
      cases kept with
      | false => exact h.returns hplain
      | true => exact hstored.returns hplain

theorem Ordered.listOrphans {listed : Except String (List ObjectId)} {known : List ObjectId}
    (h : r.Ordered s₀) (hc : r.calls none = .adopting known) :
    (r.listOrphans listed).Ordered s₀ := by
  have hplain : (r.calls none).Plain := hc ▸ ⟨rfl, rfl, rfl⟩
  cases listed with
  | error message => exact h.returns hplain
  | ok headers =>
      refine h.goto (h.same_flight hplain.1.symm) ?_ trivial ?_ ?_ ?_ ?_
      · intro p hp
        obtain ⟨key, _, hread⟩ := List.mem_filterMap.mp hp
        obtain ⟨pack, hpack, rfl⟩ := Option.map_eq_some_iff.mp hread
        exact ⟨pack, hpack, rfl⟩
      · intro id hid
        refine hid.goto fun p hp => ?_
        rw [hplain.2.1] at hp
        cases hp
      · rw [hplain.2.2]
        nofun
      · rintro _ late' ⟨⟩
      · trivial

theorem Ordered.takeHeader {headers : List PackEntries} {adopted : ℕ} (h : r.Ordered s₀)
    (hc : r.calls none = .taking headers adopted) : (r.takeHeader adopted headers).Ordered s₀ := by
  have hplain : (r.calls none).Plain := hc ▸ ⟨rfl, rfl, rfl⟩
  cases headers with
  | nil => exact h.returns hplain
  | cons pack headers =>
      have htaken : (r.goto none (.taken pack headers adopted)).Ordered s₀ := by
        refine h.goto (h.same_flight hplain.1.symm) ?_ trivial ?_ ?_ ?_ ?_
        · intro p hp
          refine h.stored none p ?_
          rw [hc]
          exact hp
        · intro id hid
          refine hid.goto fun p hp => ?_
          rw [hplain.2.1] at hp
          cases hp
        · rw [hplain.2.2]
          nofun
        · rintro _ late' ⟨⟩
        · trivial
      refine htaken.setIndex fun id hid => .inr (.inr (.inr (.inl ⟨pack, ?_, hid⟩)))
      rw [goto_self]
      exact List.mem_singleton_self _

theorem Ordered.pushHeader {headers : List PackEntries} {adopted : ℕ} (h : r.Ordered s₀)
    (hc : r.calls none = .taken p headers adopted) :
    (r.pushHeader p headers adopted).Ordered s₀ := by
  have hstored : ∀ q ∈ p :: headers, r.store.HasPack q := by
    intro q hq
    refine h.stored none q ?_
    rw [hc]
    exact hq
  let state := { r.repo.state with newPacks := r.repo.state.newPacks ++ [p] }
  have hlast : p ∈ state.newPacks := List.mem_append_right _ (List.mem_singleton_self _)
  have hlisted : (r.setState state).Ordered s₀ := by
    refine h.setState h.tracked ?_ ?_ (fun _ hid => .inr hid) h.small id
    · intro q hq
      obtain hq | hq := List.mem_append.mp hq
      · exact h.listed q hq
      · rw [List.mem_singleton.mp hq]
        exact hstored p (List.mem_cons_self ..)
    · rintro id (hid | hid | ⟨q, hq, hid⟩ | hid)
      · exact .inl hid
      · exact .inr (.inl hid)
      · exact .inr (.inr (.inl ⟨q, List.mem_append_left _ hq, hid⟩))
      · exact .inr (.inr (.inr hid))
  have hacked : ((r.setState state).ack p.ids).Ordered s₀ :=
    hlisted.ack fun id hid => .inl (.inr (.inr (.inl ⟨p, hlast, hid⟩)))
  have hcall : ((r.setState state).ack p.ids).calls none = .taken p headers adopted := hc
  refine hacked.goto (hacked.same_flight ?_) ?_ trivial ?_ ?_ ?_ ?_
  · rw [hcall]
    rfl
  · exact fun q hq => hstored q (List.mem_cons_of_mem _ hq)
  · rintro id (hid | hid | hid | ⟨q, hq, hid⟩ | hid)
    · exact .inl hid
    · exact .inr (.inl hid)
    · exact .inr (.inr (.inl hid))
    · rw [hcall] at hq
      rw [List.mem_singleton.mp hq] at hid
      exact .inr (.inr (.inl ⟨p, hlast, hid⟩))
    · exact .inr (.inr (.inr (.inr hid)))
  · rw [hcall]
    nofun
  · rintro _ late' ⟨⟩
  · trivial

theorem Ordered.step {a : BackupStep ι} (h : r.Ordered s₀) (hstep : r.step a = some t) :
    t.Ordered s₀ := by
  cases takes_of_step hstep with
  | saveBlob hc => exact h.saveBlob (hc ▸ ⟨rfl, rfl, rfl⟩)
  | look hc => exact h.look (hc ▸ ⟨rfl, rfl, rfl⟩)
  | place hc => exact h.place (hc ▸ ⟨rfl, rfl, rfl⟩) (Option.some_ne_none _)
  | putPack hc hfresh => exact h.putPack hc hfresh
  | addPack hc => exact h.addPack hc
  | settle hc => exact h.settle hc
  | reportFailure hc => exact h.reportFailure hc
  | flush hc => exact h.ifWritable (hc ▸ ⟨rfl, rfl, rfl⟩) ⟨rfl, rfl, trivial⟩ rfl trivial
  | takeOpen hc => exact h.takeOpen hc
  | takeNew hc => exact h.takeNew hc
  | putIndex hc hfresh => exact h.putIndex hc hfresh
  | saveSnapshot hc => exact h.ifWritable (hc ▸ ⟨rfl, rfl, rfl⟩) ⟨rfl, rfl, trivial⟩ rfl trivial
  | checkFlushed hc => exact h.checkFlushed hc
  | putSnapshot hc => exact h.putSnapshot hc
  | adoptOrphans hc =>
      exact h.moves (hc ▸ ⟨rfl, rfl, rfl⟩) ⟨rfl, rfl, trivial⟩ (fun _ _ hw => by cases hw) trivial
  | listOrphans hc => exact h.listOrphans hc
  | takeHeader hc => exact h.takeHeader hc
  | pushHeader hc => exact h.pushHeader hc

/-- What a published snapshot owes is listed in a stored index object under a stored pack, unless an
index object that was there when the handle was opened lists it under a pack that was not. No
`flush` and no `save_snapshot` succeeds that is called after a put has failed. -/
theorem published_owes_nothing {s : BackupRun ι} {as : List (BackupStep ι)} (hbegins : s.Begins)
    (htarget : s.repo.packTarget ≤ targetSize) (h : Runs step Unguarded s as t) :
    (∀ late owed, (late, owed) ∈ t.history.published →
      late = false ∧ ∀ id ∈ owed, t.store.Lists id ∨ s.store.Dangles id) ∧
    ∀ late ∈ t.history.flushes, late = false := by
  have hordered : t.Ordered s.store := by
    refine h.invariant (I := fun r => r.Ordered s.store) (hbegins.ordered htarget) ?_
    intro r a u hr _ hstep
    exact hr.step hstep
  exact ⟨fun late owed hentry => hordered.published (late, owed) hentry, hordered.flushes⟩

def beginning (store : BackupStore) (packTarget : ℕ) : BackupRun Unit :=
  ⟨⟨Index.load store.indexes, packTarget, .default⟩, store, fun _ => .idle none,
    ⟨[], [], false, [], []⟩⟩

theorem beginning_begins (store : BackupStore) (packTarget : ℕ) :
    (beginning store packTarget).Begins :=
  ⟨.inl rfl, rfl, fun _ => rfl, rfl⟩

def oneBlob : Plaintext := ⟨.data, 7, 3, .ok (3, .none)⟩

def oneSnapshot : BackupSnapshot := ⟨["/a"], 7, none⟩

def flushAndPublish : List (BackupStep Unit) :=
  [.flush, .takeOpen, .putPack none .done, .addPack none, .settle none, .takeNew,
    .putIndex 3 .done, .saveSnapshot oneSnapshot, .checkFlushed, .putSnapshot 4 .done]

theorem published_owes_nothing_one : ∃ t : BackupRun Unit,
    Runs step Unguarded (beginning ⟨∅, ∅, ∅⟩ targetSize)
      ([.saveBlob () oneBlob, .look (), .place () 2] ++ flushAndPublish) t ∧
    t.history.published = [(false, [7])] ∧ t.store.Lists 7 := by
  let store : BackupStore := ⟨∅, ∅, ∅⟩
  let steps := [.saveBlob () oneBlob, .look (), .place () 2] ++ flushAndPublish
  have hrun : (execute step (beginning store targetSize) steps).map
      (fun t => t.history.published) = some [(false, [7])] := by decide +kernel
  obtain ⟨t, ht, hpublished⟩ := Option.map_eq_some_iff.mp hrun
  have hruns := execute_runs ht
  refine ⟨t, hruns, hpublished, ?_⟩
  have howes := published_owes_nothing (beginning_begins store targetSize) (le_refl _) hruns
  have hentry : (false, [7]) ∈ t.history.published := by
    rw [hpublished]
    exact List.mem_singleton_self _
  obtain hlists | ⟨key, packs, hkey, _⟩ := (howes.1 false [7] hentry).2 7 (List.mem_singleton_self _)
  · exact hlists
  · cases hkey

def damagedStore : BackupStore :=
  ⟨∅, (∅ : IdMap (List PackEntries)).insert 1 [⟨2, [⟨.data, .none, 7, 0, 38, 3⟩]⟩], ∅⟩

theorem published_owes_missing : ∃ (t : BackupRun Unit) (as : List (BackupStep Unit)),
    (beginning damagedStore targetSize).Begins ∧
    Runs step Unguarded (beginning damagedStore targetSize) as t ∧
    t.history.published = [(false, [7])] ∧ t.history.lost = [] ∧ t.history.indexLost = false ∧
    ¬ t.store.Lists 7 := by
  let steps : List (BackupStep Unit) :=
    [.saveBlob () oneBlob, .flush, .takeOpen, .takeNew, .saveSnapshot oneSnapshot, .checkFlushed,
      .putSnapshot 4 .done]
  have hrun : (execute step (beginning damagedStore targetSize) steps).map
      (fun t => (t.history.published, t.history.lost, t.history.indexLost,
        t.store.packs.isEmpty)) = some ([(false, [7])], [], false, true) := by decide +kernel
  obtain ⟨t, ht, hrest⟩ := Option.map_eq_some_iff.mp hrun
  obtain ⟨hpublished, hlost, hindex, hempty⟩ := by simpa only [Prod.mk.injEq] using hrest
  refine ⟨t, steps, beginning_begins _ _, execute_runs ht, hpublished, hlost, hindex, ?_⟩
  rintro ⟨key, packs, _, p, _, _, pack, hpack, _⟩
  rw [Std.ExtTreeMap.isEmpty_iff.mp hempty, Std.ExtTreeMap.getElem?_empty] at hpack
  cases hpack

end BackupRun

end FileMirror
