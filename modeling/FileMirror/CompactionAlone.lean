import FileMirror.MergedView
import FileMirror.Transitions

set_option autoImplicit false

namespace FileMirror

open Transitions

namespace Bucket

/-- A content object that the merged manifest or a delta still in the log refers to. -/
def Refers (recorded : ℕ) (b : Bucket) (key : String) : Prop :=
  (∃ view, b.readView recorded = some view ∧ ∃ e ∈ view.1.values, e.objectKey = key) ∨
    ∃ delta, b.InLog delta ∧ delta.objectKey = key

/-- The log is what has been read together with what is still to be read. -/
def Covers (b : Bucket) (pending : List String) (deltas : List DeltaEntry) : Prop :=
  (∀ delta ∈ deltas, b.InLog delta) ∧
    ∀ (key : String) (object : DeltaObject), b.log[key]? = some object →
      key ∈ pending ∨ ∃ read, object.payload = some read ∧ read ⊆ deltas

/-- The folded manifest is the newest snapshot, a later one than it was folded from, and the
log holds nothing beyond it. -/
structure Settled (b : Bucket) (f : Folded) : Prop where
  base : b.Base f.merged.manifest
  newest : ∃ g, b.newest = some g ∧ f.snapshot.generation ≠ some g
  logReads : b.LogReads
  accounts : ∀ delta, b.InLog delta → f.merged.manifest.Accounts delta

theorem Covers.start (b : Bucket) : b.Covers ((listLog b).map Prod.fst) [] := by
  refine ⟨fun _ h => by simp at h, fun key object h => .inl ?_⟩
  simp only [listLog, List.map_map, List.mem_map, Function.comp_apply, Prod.exists]
  exact ⟨key, object, mem_log_toList.mpr h, rfl⟩

theorem Covers.fetch {b : Bucket} {pending : List String} {deltas read : List DeltaEntry}
    {key : String} (h : b.Covers pending deltas)
    (hread : b.log[key]?.bind DeltaObject.payload = some read) :
    b.Covers (pending.erase key) (deltas ++ read) := by
  obtain ⟨object, hobject, hpayload⟩ := Option.bind_eq_some_iff.mp hread
  refine ⟨fun delta hdelta => ?_, fun k o ho => ?_⟩
  · rcases List.mem_append.mp hdelta with hdelta | hdelta
    · exact h.1 delta hdelta
    · exact ⟨key, object, read, hobject, hpayload, hdelta⟩
  · by_cases hk : k = key
    · subst hk
      rw [hobject, Option.some.injEq] at ho
      subst ho
      exact .inr ⟨read, hpayload, List.subset_append_right deltas read⟩
    · rcases h.2 k o ho with hpending | ⟨ps, hps, hsub⟩
      · exact .inl ((List.mem_erase_of_ne hk).mpr hpending)
      · exact .inr ⟨ps, hps, fun _ hd => List.mem_append_left read (hsub hd)⟩

theorem Covers.done {b : Bucket} {deltas : List DeltaEntry} (h : b.Covers [] deltas) :
    b.LogReads ∧ ∀ delta, delta ∈ deltas ↔ b.InLog delta := by
  have all : ∀ (key : String) (object : DeltaObject), b.log[key]? = some object →
      ∃ read, object.payload = some read ∧ read ⊆ deltas := fun key object ho =>
    (h.2 key object ho).resolve_left (by simp)
  refine ⟨fun key object ho hnone => ?_, fun delta => ⟨h.1 delta, ?_⟩⟩
  · obtain ⟨read, hread, -⟩ := all key object ho
    rw [hnone] at hread
    cases hread
  · rintro ⟨key, object, ps, hobject, hps, hdelta⟩
    obtain ⟨read, hread, hsub⟩ := all key object hobject
    rw [hps, Option.some.injEq] at hread
    exact hsub (hread ▸ hdelta)

theorem Covers.mergesTo {b : Bucket} {m : Manifest} {deltas : List DeltaEntry}
    (h : b.Covers [] deltas) (hbase : b.Base m) : b.MergesTo (mergeDeltas m deltas).manifest := by
  obtain ⟨hreads, hmem⟩ := h.done
  obtain ⟨ds, hds⟩ := Option.isSome_iff_exists.mp (logDeltas_isSome.mpr hreads)
  refine ⟨m, ds, hbase, hds, (mergeDeltas_eq_of_mem_iff hbase.keysMatch fun d => ?_).1⟩
  rw [mem_logDeltas hds, hmem]

theorem Settled.mergesTo {b : Bucket} {f : Folded} (h : b.Settled f) :
    b.MergesTo f.merged.manifest :=
  h.base.mergesTo h.logReads h.accounts

theorem Settled.put {b : Bucket} {f : Folded} {generation : ℕ} (stamp : Option ℕ)
    (hview : b.MergesTo f.merged.manifest) (hfrom : f.snapshot.generation = b.newest)
    (hnew : ∀ g, b.newest = some g → g < generation) :
    (b.putSnapshot generation f.merged.manifest stamp).Settled f where
  base := base_putSnapshot stamp hview.keysMatch hnew
  newest := by
    refine ⟨generation, newest_putSnapshot stamp hnew, fun heq => ?_⟩
    have := hnew generation (hfrom ▸ heq)
    omega
  logReads := hview.logReads
  accounts := fun _ => hview.accounts

theorem Settled.eraseDelta {b : Bucket} {f : Folded} (h : b.Settled f) (key : String) :
    ({ b with log := b.log.erase key } : Bucket).Settled f where
  base := h.base
  newest := h.newest
  logReads := h.logReads.erase key
  accounts := fun delta hdelta => h.accounts delta hdelta.of_erase

theorem Settled.eraseSnapshot {b : Bucket} {f : Folded} {generation : ℕ} (h : b.Settled f)
    (hgeneration : f.snapshot.generation = some generation) :
    ({ b with snapshots := b.snapshots.erase generation } : Bucket).Settled f := by
  obtain ⟨g, hg, hne⟩ := h.newest
  have hold : ∀ g, b.newest = some g → generation ≠ g := by
    intro g' hg' heq
    rw [hg, Option.some.injEq] at hg'
    exact hne (by rw [hgeneration, heq, hg'])
  exact ⟨base_eraseSnapshot hold h.base, ⟨g, (newest_eraseSnapshot hold).trans hg, hne⟩,
    h.logReads, h.accounts⟩

end Bucket

def Phase.hasStored : Phase → Bool
  | .stored _ _ | .recorded _ | .verifying _ _ | .pruning _ _ | .dropped _ | .refetching _ _ _
  | .collecting _ _ => true
  | _ => false

/-- `to_store` chooses the generation next. -/
def Phase.folds : Phase → Bool
  | .folded _ => true
  | _ => false

/-- What a device knows of a bucket that nobody else writes to. -/
def Device.Sound (d : Device) (b : Bucket) : Prop :=
  match d.phase with
  | .idle => True
  | .listed newest => newest.map Prod.fst = b.newest
  | .snapshotHeld s => b.Base s.manifest ∧ s.generation = b.newest
  | .fetching s _ pending deltas =>
      b.Base s.manifest ∧ s.generation = b.newest ∧ b.Covers pending deltas
  | .folded f => b.MergesTo f.merged.manifest ∧ f.snapshot.generation = b.newest
  | .putting f generation =>
      b.MergesTo f.merged.manifest ∧ f.snapshot.generation = b.newest ∧
        (∀ g, b.newest = some g → g < generation) ∧ d.generation ≤ generation
  | .stored f generation => b.Settled f ∧ b.newest = some generation
  | .verifying f newest => b.Settled f ∧ newest.map Prod.fst = b.newest
  | .recorded f | .pruning f _ | .dropped f => b.Settled f
  | .refetching f pending deltas => b.Settled f ∧ b.Covers pending deltas
  | .collecting referenced _ => ∀ key, b.Refers 0 key → key ∈ referenced

/-- What holds between two requests of a device that started from the bucket `start`. -/
structure Alone (start : Bucket) (d : Device) (b : Bucket) : Prop where
  recorded : ∀ g, b.newest = some g → d.generation ≤ g
  view : b.readView 0 = start.readView 0
  kept : ∀ key, b.Refers 0 key → key ∈ start.data → key ∈ b.data
  newest : start.NewestLE b
  stored : d.phase.hasStored = true → start.NewestLT b
  sound : d.Sound b

namespace Bucket

theorem Settled.readView {b : Bucket} {f : Folded} (h : b.Settled f) :
    b.readView 0 = some (f.merged.manifest, maxLamport f.merged.manifest) :=
  (readView_eq_some fun _ _ => Nat.zero_le _).mpr ⟨h.mergesTo, rfl⟩

theorem MergesTo.readView {b : Bucket} {view : Manifest} (h : b.MergesTo view) :
    b.readView 0 = some (view, maxLamport view) :=
  (readView_eq_some fun _ _ => Nat.zero_le _).mpr ⟨h, rfl⟩

theorem Refers.of_le {b b' : Bucket} {key : String} (h : b'.Refers 0 key)
    (hview : b'.readView 0 = b.readView 0) (hlog : ∀ delta, b'.InLog delta → b.InLog delta) :
    b.Refers 0 key := by
  rcases h with h | ⟨delta, hdelta, hkey⟩
  · exact .inl (hview ▸ h)
  · exact .inr ⟨delta, hlog delta hdelta, hkey⟩

theorem NewestLE.trans {b b' b'' : Bucket} (h : b.NewestLE b') (h' : b'.NewestLE b'') :
    b.NewestLE b'' := by
  intro g hg
  obtain ⟨g', hg', hle⟩ := h g hg
  obtain ⟨g'', hg'', hle'⟩ := h' g' hg'
  exact ⟨g'', hg'', hle.trans hle'⟩

theorem NewestLT.trans_le {b b' b'' : Bucket} (h : b.NewestLT b') (h' : b'.NewestLE b'') :
    b.NewestLT b'' := by
  obtain ⟨g', hg', hlt⟩ := h
  obtain ⟨g'', hg'', hle⟩ := h' g' hg'
  exact ⟨g'', hg'', fun g hg => (hlt g hg).trans_le hle⟩

end Bucket

namespace Alone

variable {start b b' : Bucket} {d d' : Device}

theorem still (h : Alone start d b) (hrecorded : ∀ g, b.newest = some g → d'.generation ≤ g)
    (hstored : d'.phase.hasStored = true → d.phase.hasStored = true) (hsound : d'.Sound b) :
    Alone start d' b :=
  ⟨hrecorded, h.view, h.kept, h.newest, fun hd => h.stored (hstored hd), hsound⟩

theorem moved (h : Alone start d b) (hrecorded : ∀ g, b'.newest = some g → d'.generation ≤ g)
    (hview : b'.readView 0 = b.readView 0) (hlog : ∀ delta, b'.InLog delta → b.InLog delta)
    (hdata : b'.data = b.data) (hnewest : b.NewestLE b')
    (hstored : d'.phase.hasStored = true → start.NewestLT b') (hsound : d'.Sound b') :
    Alone start d' b' where
  recorded := hrecorded
  view := hview.trans h.view
  kept := fun key hkey hmem => hdata ▸ h.kept key (hkey.of_le hview hlog) hmem
  newest := h.newest.trans hnewest
  stored := hstored
  sound := hsound

theorem put {g generation : ℕ} {p : Purpose} {f : Folded} (stamp : Option ℕ)
    (h : Alone start ⟨g, p, .putting f generation⟩ b) :
    Alone start ⟨g, p, .stored f generation⟩
      (b.putSnapshot generation f.merged.manifest stamp) := by
  obtain ⟨hview, hfrom, hnew, hle⟩ := h.sound
  have hnewest := Bucket.newest_putSnapshot (m := f.merged.manifest) stamp hnew
  have hsettled := Bucket.Settled.put stamp hview hfrom hnew
  have hlt : b.NewestLT (b.putSnapshot generation f.merged.manifest stamp) :=
    ⟨generation, hnewest, hnew⟩
  have hstart : start.NewestLT (b.putSnapshot generation f.merged.manifest stamp) := by
    refine ⟨generation, hnewest, fun g hg => ?_⟩
    obtain ⟨g', hg', hle'⟩ := h.newest g hg
    have := hnew g' hg'
    omega
  refine h.moved ?_ ?_ (fun _ => id) rfl ?_ (fun _ => hstart) ⟨hsettled, hnewest⟩
  · intro g' hg'
    rw [hnewest, Option.some.injEq] at hg'
    exact hg' ▸ hle
  · rw [hsettled.readView, hview.readView]
  · exact fun g' hg' => ⟨generation, hnewest, (hnew g' hg').le⟩

theorem eraseDelta {g : ℕ} {p : Purpose} {f : Folded} {key : String} {modified : Option ℕ}
    {todo : List (String × Option ℕ)} (h : Alone start ⟨g, p, .pruning f ((key, modified) :: todo)⟩ b) :
    Alone start ⟨g, p, .pruning f todo⟩ { b with log := b.log.erase key } := by
  have hsettled : b.Settled f := h.sound
  have hsettled' := hsettled.eraseDelta key
  refine h.moved h.recorded ?_ (fun _ => Bucket.InLog.of_erase) rfl (.refl b)
    (fun _ => h.stored rfl) hsettled'
  rw [hsettled'.readView, hsettled.readView]

theorem eraseSnapshot {g generation : ℕ} {p : Purpose} {f : Folded}
    (h : Alone start ⟨g, p, .pruning f []⟩ b) (hgeneration : f.snapshot.generation = some generation) :
    Alone start ⟨g, p, .dropped f⟩ { b with snapshots := b.snapshots.erase generation } := by
  have hsettled : b.Settled f := h.sound
  have hsettled' := hsettled.eraseSnapshot hgeneration
  obtain ⟨g₀, hg₀, hne⟩ := hsettled.newest
  have hnewest : ({ b with snapshots := b.snapshots.erase generation } : Bucket).newest
      = b.newest := by
    refine Bucket.newest_eraseSnapshot fun g' hg' heq => hne ?_
    rw [hgeneration, heq, ← hg', hg₀]
  refine h.moved (hnewest ▸ h.recorded) ?_ (fun _ => id) rfl ?_ (fun _ => ?_) hsettled'
  · rw [hsettled'.readView, hsettled.readView]
  · exact fun g' hg' => ⟨g', hnewest.trans hg', le_rfl⟩
  · obtain ⟨g', hg', hlt⟩ := h.stored rfl
    exact ⟨g', hnewest.trans hg', hlt⟩

theorem deleteData {g : ℕ} {p : Purpose} {referenced : List String} {key : String}
    {modified : Option ℕ} {todo : List (String × Option ℕ)}
    (h : Alone start ⟨g, p, .collecting referenced ((key, modified) :: todo)⟩ b)
    (hkey : key ∉ referenced) :
    Alone start ⟨g, p, .collecting referenced todo⟩ { b with data := b.data.erase key } where
  recorded := h.recorded
  view := h.view
  kept := by
    intro k hk hmem
    have hne : key ≠ k := fun heq => hkey (heq ▸ h.sound k hk)
    have := h.kept k hk hmem
    simp [Std.ExtTreeMap.mem_erase, hne, this]
  newest := h.newest
  stored := fun _ => h.stored rfl
  sound := h.sound

theorem listed_fst (b : Bucket) : (listNewest b).map Prod.fst = b.newest := by
  unfold listNewest
  cases b.newest <;> rfl

theorem step {e : Event} (h : Alone start d b) (hstep : d.step b e = some (d', b')) :
    Alone start d' b' := by
  have hmoves := Device.step_moves hstep
  have hsound := h.sound
  cases hmoves with
  | start => exact h.still h.recorded (fun h => by cases h) (listed_fst b)
  | stop => exact h.still h.recorded (fun h => by cases h) trivial
  | empty =>
      have hnone : b.newest = none := hsound.symm
      exact h.still h.recorded (fun h => by cases h) ⟨.inl ⟨hnone, rfl⟩, hnone.symm⟩
  | opened hopen =>
      have hnewest := hsound.symm
      obtain ⟨-, -, object, hobject, hm⟩ := openNewest_eq_some.mp hopen
      refine h.still (fun g hg => ?_) (fun h => by cases h)
        ⟨.inr ⟨_, object, hnewest, hobject, hm⟩, hnewest.symm⟩
      have hle := openNewest_recorded_le hopen
      rw [hnewest] at hg
      cases hg
      exact hle
  | listLog => exact h.still h.recorded (fun h => by cases h) ⟨hsound.1, hsound.2, .start b⟩
  | fetch hkey hread =>
      exact h.still h.recorded (fun h => by cases h) ⟨hsound.1, hsound.2.1, hsound.2.2.fetch hread⟩
  | merge =>
      exact h.still h.recorded (fun h => by cases h) ⟨hsound.2.2.mergesTo hsound.1, hsound.2.1⟩
  | choose hbound =>
      refine h.still h.recorded (fun h => by cases h) ⟨hsound.1, hsound.2, fun g hg => ?_, ?_⟩
      · rw [hg, Option.getD_some]
        omega
      · cases hnewest : b.newest with
        | none => exact Nat.le_succ _
        | some g => exact (h.recorded g hnewest).trans (Nat.le_succ _)
  | put => exact h.put _
  | record =>
      refine h.still (fun g hg => ?_) (fun _ => rfl) hsound.1
      rw [hsound.2] at hg
      cases hg
      exact recordGeneration_le _
  | relist => exact h.still h.recorded (fun _ => rfl) ⟨hsound, listed_fst b⟩
  | verifiedEmpty => exact h.still h.recorded (fun _ => rfl) hsound.1
  | verified hopen =>
      refine h.still (fun g hg => ?_) (fun _ => rfl) hsound.1
      have hle := openNewest_recorded_le hopen
      rw [← hsound.2] at hg
      cases hg
      exact hle
  | mismatch hopen =>
      refine h.still (fun g hg => ?_) (fun h => by cases h) trivial
      have hle := openNewest_recorded_le hopen
      rw [← hsound.2] at hg
      cases hg
      exact hle
  | keepDelta => exact h.still h.recorded (fun _ => rfl) hsound
  | pruneDelta => exact h.eraseDelta
  | keepSnapshot => exact h.still h.recorded (fun _ => rfl) hsound
  | dropSnapshot hgeneration => exact h.eraseSnapshot hgeneration
  | relistLog => exact h.still h.recorded (fun _ => rfl) ⟨hsound, .start b⟩
  | refetch hkey hread =>
      exact h.still h.recorded (fun _ => rfl) ⟨hsound.1, hsound.2.fetch hread⟩
  | listData =>
      refine h.still h.recorded (fun _ => rfl) fun key hkey => ?_
      obtain ⟨hsettled, hcovers⟩ := hsound
      simp only [referencedBy, List.mem_map, List.mem_append]
      rcases hkey with ⟨view, hview, e, he, rfl⟩ | ⟨delta, hdelta, rfl⟩
      · rw [hsettled.readView, Option.some.injEq] at hview
        subst hview
        exact ⟨e, .inl he, rfl⟩
      · exact ⟨delta, .inr ((hcovers.done.2 delta).mpr hdelta), rfl⟩
  | keepData => exact h.still h.recorded (fun _ => rfl) hsound
  | deleteData hkey => exact h.deleteData hkey

end Alone

def aloneStep (s : Device × Bucket) (e : Event) : Option (Device × Bucket) := s.1.step s.2 e

theorem alone_start {d : Device} {b : Bucket} (hidle : d.phase = .idle)
    (hrecorded : ∀ g, b.newest = some g → d.generation ≤ g) : Alone b d b where
  recorded := hrecorded
  view := rfl
  kept := fun _ _ => id
  newest := .refl b
  stored := fun h => by rw [hidle] at h; cases h
  sound := by
    unfold Device.Sound
    rw [hidle]
    trivial

theorem Alone.run {start : Bucket} {s t : Device × Bucket} {es : List Event}
    (h : Alone start s.1 s.2) (hrun : Runs aloneStep Unguarded s es t) : Alone start t.1 t.2 := by
  refine hrun.invariant (I := fun s => Alone start s.1 s.2) h ?_
  intro s e t hs _ hstep
  exact hs.step hstep

theorem Alone.step_newest {start b b' : Bucket} {d d' : Device} {e : Event} (h : Alone start d b)
    (hstep : d.step b e = some (d', b')) : b.NewestLE b' := by
  have hmoves := Device.step_moves hstep
  have hsound := h.sound
  cases hmoves with
  | put =>
      obtain ⟨-, -, hnew, -⟩ := hsound
      exact fun g hg => ⟨_, Bucket.newest_putSnapshot _ hnew, (hnew g hg).le⟩
  | dropSnapshot hgeneration =>
      obtain ⟨g₀, hg₀, hne⟩ := Bucket.Settled.newest hsound
      refine fun g hg => ⟨g, (Bucket.newest_eraseSnapshot fun g' hg' heq => hne ?_).trans hg, le_rfl⟩
      rw [hgeneration, heq, ← hg', hg₀]
  | _ => exact .refl b

theorem Alone.run_newest {start : Bucket} {s t : Device × Bucket} {es : List Event}
    (h : Alone start s.1 s.2) (hrun : Runs aloneStep Unguarded s es t) : s.2.NewestLE t.2 := by
  have both : Alone start t.1 t.2 ∧ s.2.NewestLE t.2 := by
    refine hrun.invariant (I := fun t => Alone start t.1 t.2 ∧ s.2.NewestLE t.2) ⟨h, .refl _⟩ ?_
    intro t e u ht _ hstep
    exact ⟨ht.1.step hstep, ht.2.trans (ht.1.step_newest hstep)⟩
  exact both.2

theorem Bucket.readView_eq {recorded : ℕ} {b : Bucket}
    (hrecorded : ∀ g, b.newest = some g → recorded ≤ g) : b.readView recorded = b.readView 0 := by
  refine Option.ext fun view => ?_
  obtain ⟨m, lamport⟩ := view
  rw [readView_eq_some hrecorded, readView_eq_some fun _ _ => Nat.zero_le _]

def releaseStep (s : Device × Bucket) (e : Event) : Option (Device × Bucket) :=
  s.1.stepRelease s.2 e

/-- `to_store` does not find the last of all generations. -/
def Roomy (s : Device × Bucket) (_ : Event) : Prop :=
  s.1.phase.folds = true → s.2.newest.getD s.1.generation + 1 < 2 ^ 64

instance (s : Device × Bucket) (e : Event) : Decidable (Roomy s e) :=
  inferInstanceAs (Decidable (_ → _))

theorem roomy_runs {s t : Device × Bucket} {es : List Event}
    (h : Runs releaseStep Roomy s es t) : Runs aloneStep Unguarded s es t := by
  induction h with
  | refl s => exact .refl s
  | next hroomy hstep _ ih =>
      refine .next trivial ?_ ih
      rw [← hstep, releaseStep, aloneStep, Device.stepRelease_eq fun f hf => hroomy (by rw [hf]; rfl)]

/-- Compactions of one device, cut off anywhere and started again any number of times: the view
of the bucket stays, its newest generation grows and nothing that is referred to goes. -/
theorem compaction_alone_preserves_view (d₀ d₁ d₂ : Device) (b₀ b₁ b₂ : Bucket)
    (es₁ es₂ : List Event) (hidle : d₀.phase = .idle)
    (hrecorded : ∀ g, b₀.newest = some g → d₀.generation ≤ g)
    (hrun₁ : Runs releaseStep Roomy (d₀, b₀) es₁ (d₁, b₁))
    (hrun₂ : Runs releaseStep Roomy (d₁, b₁) es₂ (d₂, b₂)) :
    b₂.readView d₂.generation = b₀.readView d₀.generation ∧
    (∀ g recorded, b₀.newest = some g → recorded ≤ g →
      b₂.readView recorded = b₀.readView recorded) ∧
    b₁.NewestLE b₂ ∧
    (d₁.phase.hasStored = true → b₀.NewestLT b₂) ∧
    (∀ key, b₂.Refers d₂.generation key → key ∈ b₀.data → key ∈ b₂.data) ∧
    (∀ g, b₂.newest = some g → d₂.generation ≤ g) := by
  have h₁ := (alone_start hidle hrecorded).run (roomy_runs hrun₁)
  have h₂ := h₁.run (roomy_runs hrun₂)
  have hview := Bucket.readView_eq h₂.recorded
  have hnewest := h₁.run_newest (roomy_runs hrun₂)
  refine ⟨?_, ?_, hnewest, fun hstored => (h₁.stored hstored).trans_le hnewest, ?_, h₂.recorded⟩
  · rw [hview, h₂.view, ← Bucket.readView_eq hrecorded]
  · intro g recorded hg hle
    have hbefore : ∀ g', b₀.newest = some g' → recorded ≤ g' := by
      intro g' hg'
      rw [hg, Option.some.injEq] at hg'
      omega
    have hafter : ∀ g', b₂.newest = some g' → recorded ≤ g' := by
      intro g' hg'
      obtain ⟨g'', hg'', hle'⟩ := h₂.newest g hg
      rw [hg', Option.some.injEq] at hg''
      omega
    rw [Bucket.readView_eq hafter, h₂.view, ← Bucket.readView_eq hbefore]
  · intro key hkey
    unfold Bucket.Refers at hkey
    rw [hview] at hkey
    exact h₂.kept key hkey

/-- One old and one recent delta over a first snapshot, and a content object nobody refers to. -/
def loggedBucket : Bucket where
  snapshots := Std.ExtTreeMap.insert ∅ 1 ⟨1, some [.sample "a" "laptop" 1 10 none], some 0⟩
  log :=
    let old : DeltaObject := ⟨some [.sample "a" "phone" 2 11 (some 10)], some 0⟩
    let recent : DeltaObject := ⟨some [.sample "b" "phone" 3 12 none], some 100⟩
    (StringMap.single "old" old).insert "recent" recent
  data := ((StringMap.single "data/a" (some 0)).insert "data/b" (some 0)).insert "data/c" (some 0)

def wholeCompaction : List Event :=
  let request := Event.next 100 (some 100)
  [.start (.compact 50 50), request, request, .fetch "old", .fetch "recent", request, request,
    request, request, request, request, request, request, request, request, .fetch "recent",
    request, request, request, request, request]

def roomyStep : Device × Bucket → Event → Option (Device × Bucket) :=
  checked (fun s e => decide (Roomy s e)) releaseStep

theorem roomyStep_runs {s t : Device × Bucket} {es : List Event}
    (h : execute roomyStep s es = some t) : Runs releaseStep Roomy s es t :=
  checked_runs (fun _ _ hroomy => of_decide_eq_true hroomy) h

theorem compaction_alone_preserves_view_logged : ∃ d₁ b₁ d₂ b₂,
    execute roomyStep (⟨1, .read, .idle⟩, loggedBucket) (wholeCompaction.take 8) = some (d₁, b₁) ∧
    execute roomyStep (d₁, b₁) (wholeCompaction.drop 8) = some (d₂, b₂) ∧
    b₂.readView d₂.generation = loggedBucket.readView 1 ∧ loggedBucket.NewestLT b₂ := by
  have hexecute : ((execute roomyStep (⟨1, .read, .idle⟩, loggedBucket)
      (wholeCompaction.take 8)).bind fun s =>
        (execute roomyStep s (wholeCompaction.drop 8)).map fun _ => s.1.phase.hasStored)
      = some true := by
    decide +kernel
  obtain ⟨⟨d₁, b₁⟩, hrun₁, hrest⟩ := Option.bind_eq_some_iff.mp hexecute
  obtain ⟨⟨d₂, b₂⟩, hrun₂, hstored⟩ := Option.map_eq_some_iff.mp hrest
  have hrecorded : ∀ g, loggedBucket.newest = some g → 1 ≤ g := by
    have hnewest : loggedBucket.newest = some 1 := by decide +kernel
    intro g hg
    rw [hnewest, Option.some.injEq] at hg
    omega
  have h := compaction_alone_preserves_view ⟨1, .read, .idle⟩ d₁ d₂ loggedBucket b₁ b₂ _ _ rfl
    hrecorded (roomyStep_runs hrun₁) (roomyStep_runs hrun₂)
  exact ⟨d₁, b₁, d₂, b₂, hrun₁, hrun₂, h.1, h.2.2.2.1 hstored⟩

/-- The snapshot of the last generation, which is old, and nothing in the log. -/
def lastBucket : Bucket where
  snapshots := Std.ExtTreeMap.insert ∅ (2 ^ 64 - 1)
    ⟨2 ^ 64 - 1, some [.sample "a" "laptop" 1 10 none], some 0⟩
  log := ∅
  data := StringMap.single "data/a" (some 0)

def lastCompaction : List Event := .start (.compact 50 50) :: List.replicate 10 (.next 100 (some 100))

/-- The new snapshot is the first of all generations, and the only one that is left. -/
theorem compaction_at_last_generation : ∃ d b,
    Runs releaseStep Unguarded (⟨i64Max, .read, .idle⟩, lastBucket) lastCompaction (d, b) ∧
      (∀ g, lastBucket.newest = some g → i64Max ≤ g) ∧ d.phase.hasStored = true ∧
      ¬ lastBucket.NewestLE b ∧ b.readView d.generation ≠ lastBucket.readView i64Max := by
  have hexecute : (execute releaseStep (⟨i64Max, .read, .idle⟩, lastBucket) lastCompaction).map
      (fun s => (s.1.phase.hasStored, s.2.newest, (s.2.readView s.1.generation).isSome)) =
        some (true, some 0, false) := by
    decide +kernel
  obtain ⟨⟨d, b⟩, hrun, heq⟩ := Option.map_eq_some_iff.mp hexecute
  obtain ⟨hstored, hrest⟩ := Prod.mk.inj heq
  obtain ⟨hnewest, hview⟩ := Prod.mk.inj hrest
  have hlast : lastBucket.newest = some (2 ^ 64 - 1) := by decide +kernel
  refine ⟨d, b, execute_runs hrun, fun g hg => ?_, hstored, fun hle => ?_, fun hsame => ?_⟩
  · rw [hlast, Option.some.injEq] at hg
    rw [← hg]
    decide
  · obtain ⟨g, hg, hle⟩ := hle _ hlast
    rw [hnewest, Option.some.injEq] at hg
    omega
  · have hseen : (lastBucket.readView i64Max).isSome = true := by decide +kernel
    rw [← hsame, hview] at hseen
    cases hseen

end FileMirror
