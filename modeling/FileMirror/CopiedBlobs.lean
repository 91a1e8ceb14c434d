import FileMirror.IndexListings

set_option autoImplicit false

namespace FileMirror.Prune

variable {codec : BlobCodec} {draw : ℕ → ObjectId} {packId : ObjectId} {e : Entry}
  {data more sealedBytes : List UInt8} {entries : List Entry} {w w' : PackWriter}
  {n next next' : ℕ} {source : Entry → Prop}

def Opens (codec : BlobCodec) (e : Entry) (data : List UInt8) : Prop :=
  ∃ sealedBytes, e.sealedIn data = some sealedBytes ∧ decodeBlob codec e sealedBytes = .ok ()

theorem Opens.append (h : Opens codec e data) : Opens codec e (data ++ more) := by
  obtain ⟨sealedBytes, hsealed, hdecode⟩ := h
  refine ⟨sealedBytes, ?_, hdecode⟩
  unfold Entry.sealedIn at hsealed ⊢
  split_ifs at hsealed with hend
  cases hsealed
  have hoffset : e.offset ≤ data.length := by
    unfold Entry.end at hend
    omega
  have hlength : e.length ≤ (data.drop e.offset).length := by
    rw [List.length_drop]
    unfold Entry.end at hend
    omega
  rw [if_pos (by rw [List.length_append]; omega), List.drop_append_of_le_length hoffset,
    List.take_append_of_le_length hlength]

theorem opens_moved (h : decodeBlob codec e sealedBytes = .ok ()) :
    Opens codec { e with offset := data.length, length := sealedBytes.length }
      (data ++ sealedBytes) := by
  refine ⟨sealedBytes, ?_, ?_⟩
  · unfold Entry.sealedIn Entry.end
    rw [if_pos (by rw [List.length_append]), List.drop_left, List.take_length]
  · unfold decodeBlob at h ⊢
    split_ifs at h
    rw [if_neg (by simp)]
    exact h

/-- What a writer has was copied from `source`. -/
structure Fills (codec : BlobCodec) (draw : ℕ → ObjectId) (source : Entry → Prop) (n : ℕ)
    (w : PackWriter) : Prop where
  id : w.id = draw n
  opens : ∀ e ∈ w.entries, Opens codec e w.buf
  copied : ∀ e ∈ w.entries, ∃ original, source original ∧ original.id = e.id

theorem fills_new : Fills codec draw source n (.new (draw n)) where
  id := rfl
  opens _ he := absurd he List.not_mem_nil
  copied _ he := absurd he List.not_mem_nil

theorem Fills.push (h : Fills codec draw source n w) (he : source e)
    (hdecode : decodeBlob codec e sealedBytes = .ok ()) (hpush : w.push e sealedBytes = .ok w') :
    Fills codec draw source n w' ∧ (∀ id ∈ w.entries.map Entry.id, id ∈ w'.entries.map Entry.id) ∧
      e.id ∈ w'.entries.map Entry.id := by
  unfold PackWriter.push at hpush
  split_ifs at hpush with hseen hfits
  · cases hpush
    exact ⟨h, fun id hid => hid, hseen⟩
  · cases hpush
    refine ⟨⟨h.id, ?_, ?_⟩, ?_, ?_⟩
    · intro other hother
      obtain hother | hother := List.mem_append.mp hother
      · exact (h.opens other hother).append
      · rw [List.mem_singleton.mp hother]
        exact opens_moved hdecode
    · intro other hother
      obtain hother | hother := List.mem_append.mp hother
      · exact h.copied other hother
      · rw [List.mem_singleton.mp hother]
        exact ⟨e, he, rfl⟩
    · intro id hid
      rw [List.map_append]
      exact List.mem_append_left _ hid
    · rw [List.map_append]
      exact List.mem_append_right _ (List.mem_singleton_self _)

structure NewPack where
  drawn : ℕ
  data : List UInt8
  entries : List Entry

namespace NewPack

def put (draw : ℕ → ObjectId) (p : NewPack) : Effect := .putPack (draw p.drawn) p.data

def listing (draw : ℕ → ObjectId) (p : NewPack) : PackEntries := ⟨draw p.drawn, p.entries⟩

def Copies (codec : BlobCodec) (source : Entry → Prop) (p : NewPack) : Prop :=
  ∀ e ∈ p.entries, Opens codec e p.data ∧ ∃ original, source original ∧ original.id = e.id

end NewPack

theorem Fills.finish (h : Fills codec draw source n w) {packed : List UInt8}
    {listing : PackEntries} (hfinish : w.finish codec = .ok (packed, listing)) :
    ∃ p : NewPack, p.drawn = n ∧ p.Copies codec source ∧ p.entries = w.entries ∧
      Effect.putPack listing.packId packed = p.put draw ∧ listing = p.listing draw := by
  unfold PackWriter.finish at hfinish
  dsimp only at hfinish
  split_ifs at hfinish
  cases hfinish
  let packed := w.buf ++ codec.sealedHeader w.id w.entries ++
    PackWriter.encodeFooter (codec.sealedHeader w.id w.entries).length
  refine ⟨⟨n, packed, w.entries⟩, rfl, ?_, rfl, ?_, ?_⟩
  · intro e he
    exact ⟨(h.opens e he).append.append, h.copied e he⟩
  · exact congrArg (Effect.putPack · packed) h.id
  · exact congrArg (PackEntries.mk · w.entries) h.id

structure Copied (codec : BlobCodec) (draw : ℕ → ObjectId) (source : Entry → Prop)
    (ids : List ObjectId) (packs : List NewPack)
    (outcome : List Effect × Except BackupError (List PackEntries × ℕ)) : Prop where
  effects : outcome.1 = packs.map (NewPack.put draw)
  copies : ∀ p ∈ packs, p.Copies codec source
  finished : ∀ listings next, outcome.2 = .ok (listings, next) →
    listings = packs.map (NewPack.listing draw) ∧
      ∀ id ∈ ids, ∃ p ∈ packs, id ∈ p.entries.map Entry.id

section Copied

variable {ids others : List ObjectId} {packs : List NewPack} {p : NewPack}
  {outcome : List Effect × Except BackupError (List PackEntries × ℕ)}

theorem copied_error {error : BackupError} :
    Copied codec draw source ids [] ([], .error error) where
  effects := rfl
  copies _ hp := absurd hp List.not_mem_nil
  finished _ _ h := by cases h

theorem copied_nothing : Copied codec draw source [] [] ([], .ok ([], next)) where
  effects := rfl
  copies _ hp := absurd hp List.not_mem_nil
  finished := by
    rintro _ _ ⟨⟩
    exact ⟨rfl, fun id hid => absurd hid List.not_mem_nil⟩

theorem Copied.mono (h : Copied codec draw source ids packs outcome)
    (hids : ∀ id ∈ others, id ∈ ids) : Copied codec draw source others packs outcome := by
  refine ⟨h.effects, h.copies, fun listings next hok => ?_⟩
  obtain ⟨hlistings, hall⟩ := h.finished listings next hok
  exact ⟨hlistings, fun id hid => hall id (hids id hid)⟩

theorem Copied.cons (h : Copied codec draw source ids packs outcome)
    (hp : p.Copies codec source) :
    Copied codec draw source (p.entries.map Entry.id ++ ids) (p :: packs)
      (p.put draw :: outcome.1,
        outcome.2.map fun (listings, next) => (p.listing draw :: listings, next)) := by
  refine ⟨?_, List.forall_mem_cons.mpr ⟨hp, h.copies⟩, ?_⟩
  · rw [List.map_cons, h.effects]
  · intro listings last hok
    cases hresult : outcome.2 with
    | error e =>
        rw [hresult] at hok
        cases hok
    | ok result =>
        obtain ⟨rest, after⟩ := result
        rw [hresult] at hok
        cases hok
        obtain ⟨hlistings, hall⟩ := h.finished rest last hresult
        refine ⟨by rw [hlistings, List.map_cons], ?_⟩
        intro id hid
        obtain hid | hid := List.mem_append.mp hid
        · exact ⟨p, List.mem_cons_self .., hid⟩
        · obtain ⟨q, hq, hqid⟩ := hall id hid
          exact ⟨q, List.mem_cons_of_mem _ hq, hqid⟩

theorem Copied.append {effects : List Effect} {listings : List PackEntries} {more : List NewPack}
    (h : Copied codec draw source ids packs (effects, .ok (listings, next)))
    (hmore : Copied codec draw source others more outcome) :
    Copied codec draw source (ids ++ others) (packs ++ more)
      (effects ++ outcome.1, outcome.2.map fun (rest, next) => (listings ++ rest, next)) := by
  obtain ⟨hlistings, hall⟩ := h.finished listings next rfl
  refine ⟨?_, List.forall_mem_append.mpr ⟨h.copies, hmore.copies⟩, ?_⟩
  · rw [List.map_append, ← hmore.effects, ← h.effects]
  · intro all last hok
    cases hresult : outcome.2 with
    | error e =>
        rw [hresult] at hok
        cases hok
    | ok result =>
        obtain ⟨rest, after⟩ := result
        rw [hresult] at hok
        cases hok
        obtain ⟨hrest, hothers⟩ := hmore.finished rest last hresult
        refine ⟨by rw [hlistings, hrest, List.map_append], ?_⟩
        intro id hid
        obtain hid | hid := List.mem_append.mp hid
        · obtain ⟨p, hp, hpid⟩ := hall id hid
          exact ⟨p, List.mem_append_left _ hp, hpid⟩
        · obtain ⟨p, hp, hpid⟩ := hothers id hid
          exact ⟨p, List.mem_append_right _ hp, hpid⟩

end Copied

theorem copyEntries_spec (hentries : ∀ e ∈ entries, Opens codec e data → source e)
    (hw : Fills codec draw source n w) :
    ∃ packs, Copied codec draw source (w.entries.map Entry.id ++ entries.map Entry.id) packs
      (copyEntries codec draw packId data entries w next) := by
  induction entries generalizing w n next with
  | nil =>
      rw [copyEntries, List.map_nil, List.append_nil]
      split_ifs with hempty
      · rw [hempty]
        exact ⟨[], copied_nothing⟩
      · split
        · exact ⟨[], copied_error⟩
        · next packed listing hfinish =>
            obtain ⟨p, rfl, hcopies, hids, hput, hlisting⟩ := hw.finish hfinish
            have hlast : Copied codec draw source [] [] ([], .ok ([], next)) := copied_nothing
            have hcopied := hlast.cons hcopies
            rw [List.append_nil, hids] at hcopied
            rw [hput, hlisting]
            exact ⟨[p], hcopied⟩
  | cons e entries ih =>
      obtain ⟨he, hrest⟩ := List.forall_mem_cons.mp hentries
      rw [copyEntries]
      split
      · exact ⟨[], copied_error⟩
      · next sealedBytes hsealed =>
          split
          · exact ⟨[], copied_error⟩
          · exact ⟨[], copied_error⟩
          · next w' hdecode hpush =>
              obtain ⟨hw', hkeeps, hadded⟩ := hw.push (he ⟨_, hsealed, hdecode⟩) hdecode hpush
              have hids : ∀ id ∈ w.entries.map Entry.id ++ (e :: entries).map Entry.id,
                  id ∈ w'.entries.map Entry.id ++ entries.map Entry.id := by
                intro id hid
                rw [List.map_cons, List.mem_append, List.mem_cons] at hid
                obtain hid | rfl | hid := hid
                · exact List.mem_append_left _ (hkeeps id hid)
                · exact List.mem_append_left _ hadded
                · exact List.mem_append_right _ hid
              split_ifs with hfull
              · split
                · exact ⟨[], copied_error⟩
                · next packed listing hfinish =>
                    obtain ⟨p, rfl, hcopies, hentries, hput, hlisting⟩ := hw'.finish hfinish
                    obtain ⟨packs, hpacks⟩ := ih hrest fills_new
                    have hcopied := hpacks.cons hcopies
                    rw [hentries] at hcopied
                    rw [hput, hlisting]
                    exact ⟨p :: packs, hcopied.mono hids⟩
              · obtain ⟨packs, hpacks⟩ := ih hrest hw'
                exact ⟨packs, hpacks.mono hids⟩

theorem copyAll_spec (draw : ℕ → ObjectId) {repack : List (ObjectId × StoredPack × List Entry)}
    (hrepack : ∀ packId pack needed, (packId, pack, needed) ∈ repack → ∀ e ∈ needed,
      Opens codec e pack.data → source e) (next : ℕ) :
    ∃ packs, Copied codec draw source (repack.flatMap fun p => p.2.2.map Entry.id) packs
      (copyAll codec draw repack next) := by
  induction repack generalizing next with
  | nil => exact ⟨[], copied_nothing⟩
  | cons first repack ih =>
      obtain ⟨packId, pack, needed⟩ := first
      have hfirst : ∀ e ∈ needed, Opens codec e pack.data → source e :=
        hrepack packId pack needed (List.mem_cons_self ..)
      have hrest := fun id p l h => hrepack id p l (List.mem_cons_of_mem _ h)
      obtain ⟨packs, hpacks⟩ : ∃ packs, Copied codec draw source (needed.map Entry.id) packs
          (copyNeeded codec draw packId pack needed next) := copyEntries_spec hfirst fills_new
      rw [copyAll, List.flatMap_cons]
      split
      · next effects e hresult =>
          rw [hresult] at hpacks
          refine ⟨packs, hpacks.effects, hpacks.copies, ?_⟩
          rintro listings last ⟨⟩
      · next effects listings after hresult =>
          rw [hresult] at hpacks
          obtain ⟨more, hmore⟩ := ih hrest after
          exact ⟨packs ++ more, hpacks.append hmore⟩

end FileMirror.Prune
