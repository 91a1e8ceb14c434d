import FileMirror.CompactionShared

set_option autoImplicit false

namespace FileMirror

open Transitions

/-- The bucket, its one collector and the uploads under way, each with the time of its put. For the
statements only are recorded the uploads logged since the collector last listed the log anew, and
when each content object was last put: by now, and when the collector last listed the objects. -/
structure Depot where
  collector : Device
  bucket : Bucket
  now : ℕ
  uploads : List (String × ℕ)
  logged : List (String × ℕ)
  puts : StringMap (Option ℕ)
  listed : StringMap (Option ℕ)

inductive DepotLabel where
  | collector (e : Event)
  | put (key : String)
  | logDelta (key : String) (sent : List (DeltaEntry × ℕ))
  | tick

def Device.relists (d : Device) : Event → Bool
  | .next _ _ =>
      match d.phase with
      | .dropped _ => true
      | _ => false
  | _ => false

def Device.listsData (d : Device) : Event → Bool
  | .next _ _ =>
      match d.phase with
      | .refetching _ [] _ => true
      | _ => false
  | _ => false

def sentUploads (sent : List (DeltaEntry × ℕ)) : List (String × ℕ) :=
  sent.map fun p => (p.1.objectKey, p.2)

def Depot.step (s : Depot) : DepotLabel → Option Depot
  | .collector e =>
      (s.collector.step s.bucket e).map fun moved =>
        { s with
          collector := moved.1
          bucket := moved.2
          logged := if s.collector.relists e then [] else s.logged
          listed := if s.collector.listsData e then s.puts else s.listed }
  | .put key => some
      { s with
        bucket := { s.bucket with data := s.bucket.data.insert key (some s.now) }
        uploads := (key, s.now) :: s.uploads
        puts := s.puts.insert key (some s.now) }
  | .logDelta key sent => some
      { s with
        bucket := s.bucket.logDelta key (sent.map Prod.fst) (some s.now)
        uploads := (sentUploads sent).foldl List.erase s.uploads
        logged := sentUploads sent ++ s.logged }
  | .tick => some { s with now := s.now + 1 }

/-- There is one clock, and one retention, than which no upload takes longer between its put and its
delta; delta objects have keys of their own. -/
def Depot.Proper (retention : ℕ) (s : Depot) : DepotLabel → Prop
  | .collector e => (∀ grace other, e = .start (.compact grace other) → other = retention) ∧
      ∀ now stamp, e = .next now stamp → now = s.now ∧ stamp = some s.now
  | .logDelta key sent => key ∉ s.bucket.log ∧
      ∀ upload ∈ sentUploads sent, upload ∈ s.uploads ∧ s.now ≤ upload.2 + retention
  | .put _ | .tick => True

def Depot.Open (retention : ℕ) (s : Depot) (upload : String × ℕ) : Prop :=
  upload ∈ s.logged ∨ upload ∈ s.uploads ∧ s.now ≤ upload.2 + retention

/-- When the collector comes to an object that it has not found referenced, and an upload of it is
open, less than the retention has passed since the last put of the object before the objects were
listed. -/
def Depot.Timely (retention : ℕ) (s : Depot) : DepotLabel → Prop
  | .collector (.next _ _) => ∀ referenced key modified todo,
      s.collector.phase = .collecting referenced ((key, modified) :: todo) → key ∉ referenced →
        (∃ put, s.Open retention (key, put)) →
          ∀ last, s.listed[key]? = some (some last) → s.now < last + retention
  | _ => True

def Manifest.Stocked (m : Manifest) (data : StringMap (Option ℕ)) : Prop :=
  ∀ e ∈ m.values, e.deleted = false → e.objectKey ∈ data

/-- Whatever the newest snapshot or a delta refers to is there. -/
structure Bucket.Stocked (b : Bucket) : Prop where
  snapshot : ∀ m, b.Base m → m.Stocked b.data
  log : ∀ delta, b.InLog delta → delta.objectKey ∈ b.data

/-- Whatever the newest snapshot or a delta refers to is there, and so is the object of every upload
that can still be logged. -/
structure Depot.Safe (retention : ℕ) (s : Depot) : Prop where
  stocked : s.bucket.Stocked
  uploads : ∀ upload ∈ s.uploads, s.now ≤ upload.2 + retention → upload.1 ∈ s.bucket.data

/-- The collector rests, and no upload is under way. -/
structure Depot.Initial (s : Depot) : Prop where
  idle : s.collector.phase = .idle
  stocked : s.bucket.Stocked
  uploads : s.uploads = []
  puts : s.puts = s.bucket.data

def Bucket.Rereads (b : Bucket) (pending : List String) (deltas : List DeltaEntry)
    (logged : List String) : Prop :=
  ∀ (key : String) (object : DeltaObject), b.log[key]? = some object → key ∈ pending ∨
    ∀ read, object.payload = some read → ∀ d ∈ read, d ∈ deltas ∨ d.objectKey ∈ logged

def Bucket.Published (b : Bucket) (f : Folded) : Prop :=
  b.Base f.merged.manifest ∧ b.newest ≠ f.snapshot.generation

def Device.Holds (d : Device) (b : Bucket) (logged : List String) : Prop :=
  match d.phase with
  | .idle => True
  | .listed newest => newest.map Prod.fst = b.newest
  | .snapshotHeld s => b.Base s.manifest ∧ s.generation = b.newest
  | .fetching s _ _ deltas =>
      b.Base s.manifest ∧ s.generation = b.newest ∧ ∀ d ∈ deltas, d.objectKey ∈ b.data
  | .folded f => f.merged.manifest.KeysMatch ∧ f.merged.manifest.Stocked b.data ∧
      f.snapshot.generation = b.newest
  | .putting f generation => f.merged.manifest.KeysMatch ∧ f.merged.manifest.Stocked b.data ∧
      f.snapshot.generation = b.newest ∧ ∀ g, b.newest = some g → g < generation
  | .stored f _ | .recorded f | .verifying f _ | .pruning f _ | .dropped f => b.Published f
  | .refetching f pending deltas => b.Published f ∧ b.Rereads pending deltas logged
  | .collecting referenced _ =>
      (∃ m, b.Base m ∧ ∀ e ∈ m.values, e.objectKey ∈ referenced) ∧
        ∀ delta, b.InLog delta → delta.objectKey ∈ referenced ∨ delta.objectKey ∈ logged

def Phase.rereads : Phase → Bool
  | .refetching _ _ _ | .collecting _ _ => true
  | _ => false

structure Depot.Dated (retention : ℕ) (s : Depot) : Prop where
  purpose : s.collector.phase ≠ .idle →
    ∀ grace other, s.collector.purpose = .compact grace other → other = retention
  objects : ∀ (key : String) (modified : Option ℕ), s.bucket.data[key]? = some modified → s.puts[key]? = some modified
  listing : ∀ referenced todo, s.collector.phase = .collecting referenced todo →
    ∀ entry ∈ todo, s.listed[entry.1]? = some entry.2

structure Depot.Sound (retention : ℕ) (s : Depot) : Prop where
  safe : s.Safe retention
  held : s.collector.Holds s.bucket (s.logged.map Prod.fst)
  dated : s.Dated retention
  named : s.collector.phase.rereads = true → ∀ upload ∈ s.logged, ∃ delta,
    s.bucket.InLog delta ∧ delta.objectKey = upload.1

section Buckets

variable {b b' : Bucket} {d d' : Device} {e : Event} {logged logged' : List String} {m : Manifest}
  {key : String} {deltas : List DeltaEntry} {stamp : Option ℕ} {delta : DeltaEntry}

theorem Bucket.InLog.of_logDelta (h : (b.logDelta key deltas stamp).InLog delta) :
    b.InLog delta ∨ delta ∈ deltas := by
  obtain ⟨k, object, read, hobject, hread, hdelta⟩ := h
  simp only [Bucket.logDelta, StringMap.getElem?_insert] at hobject
  split_ifs at hobject
  · cases hobject
    cases hread
    exact .inr hdelta
  · exact .inl ⟨k, object, read, hobject, hread, hdelta⟩

theorem Bucket.InLog.logDelta (h : b.InLog delta) (hfresh : key ∉ b.log) :
    (b.logDelta key deltas stamp).InLog delta := by
  obtain ⟨k, object, read, hobject, hread, hdelta⟩ := h
  refine ⟨k, object, read, ?_, hread, hdelta⟩
  have hk : key ≠ k := by
    rintro rfl
    rw [Std.ExtTreeMap.getElem?_eq_none hfresh] at hobject
    cases hobject
  simp only [Bucket.logDelta, StringMap.getElem?_insert, if_neg hk]
  exact hobject

theorem Bucket.inLog_logged (h : delta ∈ deltas) : (b.logDelta key deltas stamp).InLog delta := by
  refine ⟨key, ⟨some deltas, stamp⟩, deltas, ?_, rfl, h⟩
  simp only [Bucket.logDelta, StringMap.getElem?_insert, if_true]

theorem Manifest.Stocked.mono {data data' : StringMap (Option ℕ)} (h : m.Stocked data)
    (hdata : ∀ k ∈ data, k ∈ data') : m.Stocked data' :=
  fun e he hlive => hdata _ (h e he hlive)

theorem Device.Holds.mono (h : d.Holds b logged) (hsnapshots : b'.snapshots = b.snapshots)
    (hdata : ∀ k ∈ b.data, k ∈ b'.data) (hlogged : logged ⊆ logged')
    (hlog : ∀ (k : String) (object : DeltaObject), b'.log[k]? = some object →
      b.log[k]? = some object ∨
        ∀ read, object.payload = some read → ∀ d ∈ read, d.objectKey ∈ logged') :
    d.Holds b' logged' := by
  have hnewest : b'.newest = b.newest := congrArg (fun s => s.keys.getLast?) hsnapshots
  have hbase : ∀ m, b.Base m → b'.Base m := by
    intro m hm
    unfold Bucket.Base at hm ⊢
    rwa [hnewest, hsnapshots]
  have hpublished : ∀ f, b.Published f → b'.Published f := by
    rintro f ⟨hf, hne⟩
    exact ⟨hbase _ hf, by rwa [hnewest]⟩
  obtain ⟨g, purpose, phase⟩ := d
  cases phase with
  | idle => trivial
  | listed newest =>
      change newest.map Prod.fst = b'.newest
      rwa [hnewest]
  | snapshotHeld s => exact ⟨hbase _ h.1, by rw [hnewest]; exact h.2⟩
  | fetching s metas pending deltas =>
      exact ⟨hbase _ h.1, by rw [hnewest]; exact h.2.1, fun d hd => hdata _ (h.2.2 d hd)⟩
  | folded f => exact ⟨h.1, h.2.1.mono hdata, by rw [hnewest]; exact h.2.2⟩
  | putting f generation =>
      exact ⟨h.1, h.2.1.mono hdata, by rw [hnewest]; exact h.2.2.1, by rw [hnewest]; exact h.2.2.2⟩
  | stored f _ => exact hpublished f h
  | recorded f => exact hpublished f h
  | verifying f _ => exact hpublished f h
  | pruning f _ => exact hpublished f h
  | dropped f => exact hpublished f h
  | refetching f pending deltas =>
      refine ⟨hpublished f h.1, fun k object hobject => ?_⟩
      rcases hlog k object hobject with hold | hnew
      · refine (h.2 k object hold).imp_right fun hread read hpayload d hd => ?_
        exact (hread read hpayload d hd).imp_right fun hmem => hlogged hmem
      · exact .inr fun read hpayload d hd => .inr (hnew read hpayload d hd)
  | collecting referenced todo =>
      obtain ⟨⟨m, hm, hreferenced⟩, hall⟩ := h
      refine ⟨⟨m, hbase m hm, hreferenced⟩, ?_⟩
      rintro delta ⟨k, object, read, hobject, hpayload, hdelta⟩
      rcases hlog k object hobject with hold | hnew
      · exact (hall delta ⟨k, object, read, hold, hpayload, hdelta⟩).imp_right fun hmem =>
          hlogged hmem
      · exact .inr (hnew read hpayload delta hdelta)

theorem Bucket.Rereads.start (b : Bucket) (logged : List String) :
    b.Rereads ((listLog b).map Prod.fst) [] logged := by
  intro k object hobject
  left
  simp only [listLog, List.map_map, List.mem_map, Function.comp_apply, Prod.exists]
  exact ⟨k, object, Bucket.mem_log_toList.mpr hobject, rfl⟩

theorem Bucket.Rereads.fetch {pending : List String} {read : List DeltaEntry}
    (h : b.Rereads pending deltas logged) (hread : b.log[key]?.bind DeltaObject.payload = some read) :
    b.Rereads (pending.erase key) (deltas ++ read) logged := by
  intro k object hobject
  by_cases hk : k = key
  · subst hk
    rw [hobject, Option.bind_some] at hread
    right
    intro again hagain d hd
    rw [hread] at hagain
    cases hagain
    exact .inl (List.mem_append_right _ hd)
  · rcases h k object hobject with hpending | hall
    · exact .inl ((List.mem_erase_of_ne hk).mpr hpending)
    · refine .inr fun again hagain d hd => ?_
      exact (hall again hagain d hd).imp_left fun hmem => List.mem_append_left _ hmem

theorem Bucket.Rereads.referenced {f : Folded} (h : b.Rereads [] deltas logged)
    (hdelta : b.InLog delta) :
    delta.objectKey ∈ referencedBy f.merged.manifest deltas ∨ delta.objectKey ∈ logged := by
  obtain ⟨k, object, read, hobject, hpayload, hmem⟩ := hdelta
  rcases h k object hobject with hpending | hall
  · cases hpending
  · refine (hall read hpayload delta hmem).imp_left fun hread => ?_
    exact List.mem_map_of_mem (List.mem_append_right _ hread)

theorem Bucket.Stocked.merged {deltas : List DeltaEntry} (h : b.Stocked) (hbase : b.Base m)
    (hdeltas : ∀ d ∈ deltas, d.objectKey ∈ b.data) :
    (mergeDeltas m deltas).manifest.Stocked b.data := by
  intro e he hlive
  obtain ⟨path, hentry⟩ := Manifest.mem_values.mp he
  rcases mergeDeltas_mem hbase.keysMatch hentry with hold | ⟨-, hmem⟩
  · exact h.snapshot m hbase e (Manifest.mem_values.mpr ⟨path, hold⟩) hlive
  · exact hdeltas e hmem

theorem Device.Holds.moves (hmoves : Moves b d e d' b') (hstocked : b.Stocked)
    (h : d.Holds b logged) (hdata : b'.data = b.data) :
    d'.Holds b' (if d.relists e then [] else logged) ∧ b'.Stocked := by
  cases hmoves with
  | start => exact ⟨listNewest_fst b, hstocked⟩
  | stop => exact ⟨trivial, hstocked⟩
  | mismatch => exact ⟨trivial, hstocked⟩
  | empty => exact ⟨⟨.inl ⟨h.symm, rfl⟩, h⟩, hstocked⟩
  | opened hopen =>
      obtain ⟨-, -, object, hobject, hm⟩ := openNewest_eq_some.mp hopen
      exact ⟨⟨.inr ⟨_, object, h.symm, hobject, hm⟩, h⟩, hstocked⟩
  | listLog => exact ⟨⟨h.1, h.2, List.forall_mem_nil _⟩, hstocked⟩
  | fetch hkey hread =>
      obtain ⟨object, hobject, hpayload⟩ := Option.bind_eq_some_iff.mp hread
      refine ⟨⟨h.1, h.2.1, fun delta hdelta => ?_⟩, hstocked⟩
      rcases List.mem_append.mp hdelta with hdelta | hdelta
      · exact h.2.2 delta hdelta
      · exact hstocked.log delta ⟨_, object, _, hobject, hpayload, hdelta⟩
  | merge =>
      exact ⟨⟨mergeDeltas_keysMatch h.1.keysMatch _, hstocked.merged h.1 h.2.2, h.2.1⟩, hstocked⟩
  | choose hbound =>
      refine ⟨⟨h.1, h.2.1, h.2.2, fun g hg => ?_⟩, hstocked⟩
      rw [hg, Option.getD_some]
      omega
  | @put g p now stamp f generation =>
      obtain ⟨hkeys, hstock, hfrom, hnew⟩ := h
      have hnewest := Bucket.newest_putSnapshot (m := f.merged.manifest) stamp hnew
      have hbase := Bucket.base_putSnapshot stamp hkeys hnew
      refine ⟨⟨hbase, ?_⟩, fun m hm => ?_, hstocked.log⟩
      · rw [hnewest, hfrom]
        intro heq
        exact absurd (hnew generation heq.symm) (lt_irrefl _)
      · rw [hm.unique hbase]
        exact hstock
  | record => exact ⟨h, hstocked⟩
  | relist => exact ⟨h, hstocked⟩
  | verifiedEmpty => exact ⟨h, hstocked⟩
  | verified hopen => exact ⟨h, hstocked⟩
  | keepDelta => exact ⟨h, hstocked⟩
  | pruneDelta => exact ⟨h, hstocked.snapshot, fun delta hdelta => hstocked.log delta hdelta.of_erase⟩
  | keepSnapshot => exact ⟨h, hstocked⟩
  | @dropSnapshot g grace retention now stamp f generation hgeneration =>
      obtain ⟨hbase, hne⟩ := h
      have hold : ∀ g, b.newest = some g → generation ≠ g := by
        rintro g hg rfl
        exact hne (hg.trans hgeneration.symm)
      have hkept := Bucket.base_eraseSnapshot hold hbase
      refine ⟨⟨hkept, ?_⟩, fun m hm => ?_, hstocked.log⟩
      · rw [Bucket.newest_eraseSnapshot hold]
        exact hne
      · rw [hm.unique hkept]
        exact hstocked.snapshot _ hbase
  | relistLog => exact ⟨⟨h, .start b _⟩, hstocked⟩
  | refetch hkey hread => exact ⟨⟨h.1, h.2.fetch hread⟩, hstocked⟩
  | listData =>
      refine ⟨⟨⟨_, h.1.1, fun e he => ?_⟩, fun delta hdelta => h.2.referenced hdelta⟩, hstocked⟩
      exact List.mem_map_of_mem (List.mem_append_left _ he)
  | keepData => cases e <;> exact ⟨h, hstocked⟩
  | @deleteData g p now stamp referenced key modified todo hkey =>
      have hsame : b.data.erase key = b.data := hdata
      refine ⟨h, fun m hm => ?_, fun delta hdelta => ?_⟩
      · change m.Stocked (b.data.erase key)
        rw [hsame]
        exact hstocked.snapshot m hm
      · change delta.objectKey ∈ b.data.erase key
        rw [hsame]
        exact hstocked.log delta hdelta

/-- What a step does with the content objects: it deletes none, or the one whose turn it is, which
was not found referenced and is as old as the retention. -/
theorem Device.step_data (hstep : d.step b e = some (d', b')) : b'.data = b.data ∨
    ∃ grace retention now stamp referenced key modified todo,
      d.purpose = .compact grace retention ∧ e = .next now stamp ∧
      d.phase = .collecting referenced ((key, modified) :: todo) ∧ key ∉ referenced ∧
      prunable now retention modified = true ∧
      d' = { d with phase := .collecting referenced todo } ∧
      b' = { b with data := b.data.erase key } := by
  obtain ⟨g, purpose, phase⟩ := d
  cases e with
  | next now stamp =>
      have hmoves := Device.step_moves hstep
      cases purpose with
      | read =>
          cases hmoves with
          | deleteData => cases hstep
          | _ => exact .inl rfl
      | compact grace retention =>
          cases phase with
          | collecting referenced todo =>
              cases todo with
              | nil =>
                  cases hstep
                  exact .inl rfl
              | cons entry todo =>
                  obtain ⟨key, modified⟩ := entry
                  simp only [Device.step, Device.next] at hstep
                  split_ifs at hstep with hkeep
                  · cases hstep
                    exact .inl rfl
                  · cases hstep
                    rw [not_or, not_not] at hkeep
                    exact .inr ⟨grace, retention, now, stamp, referenced, key, modified, todo, rfl,
                      rfl, rfl, hkeep.1, hkeep.2, rfl, rfl⟩
          | _ =>
              cases hmoves with
              | _ => exact .inl rfl
  | _ =>
      cases Device.step_moves hstep with
      | _ => exact .inl rfl

theorem Device.step_turn {now : ℕ} {referenced : List String} {modified : Option ℕ}
    {todo : List (String × Option ℕ)} {retention : ℕ}
    (hphase : d.phase = .collecting referenced ((key, modified) :: todo)) (hkey : key ∉ referenced)
    (hpurpose : ∀ grace other, d.purpose = .compact grace other → other = retention)
    (hold : prunable now retention modified = true)
    (hstep : d.step b (.next now stamp) = some (d', b')) :
    b' = { b with data := b.data.erase key } := by
  obtain ⟨g, purpose, phase⟩ := d
  simp only at hphase
  subst hphase
  cases purpose with
  | read => cases hstep
  | compact grace other =>
      cases hpurpose grace other rfl
      simp only [Device.step, Device.next] at hstep
      rw [if_neg (by simp [hkey, hold])] at hstep
      cases hstep
      rfl

end Buckets

theorem Moves.rereads {b b' : Bucket} {d d' : Device} {e : Event} (h : Moves b d e d' b')
    (hphase : d'.phase.rereads = true) : d.relists e = true ∨ d.phase.rereads = true ∧ b'.log = b.log := by
  cases h with
  | relistLog => exact .inl rfl
  | refetch => exact .inr ⟨rfl, rfl⟩
  | listData => exact .inr ⟨rfl, rfl⟩
  | keepData => exact .inr ⟨rfl, rfl⟩
  | deleteData => exact .inr ⟨rfl, rfl⟩
  | _ => cases hphase

theorem Moves.purpose {b b' : Bucket} {d d' : Device} {e : Event} (h : Moves b d e d' b') :
    d'.phase = .idle ∨ (∃ p, e = .start p ∧ d'.purpose = p) ∨
      d.phase ≠ .idle ∧ d'.purpose = d.purpose := by
  cases h with
  | start => exact .inr (.inl ⟨_, rfl, rfl⟩)
  | stop => exact .inl rfl
  | mismatch => exact .inl rfl
  | _ => exact .inr (.inr ⟨Phase.noConfusion, rfl⟩)

theorem Moves.listing {b b' : Bucket} {d d' : Device} {e : Event} {referenced : List String}
    {todo : List (String × Option ℕ)} (h : Moves b d e d' b')
    (hphase : d'.phase = .collecting referenced todo) :
    d.listsData e = true ∧ todo = FileMirror.listData b ∨
      d.listsData e = false ∧ ∃ entry, d.phase = .collecting referenced (entry :: todo) := by
  cases h with
  | listData =>
      cases hphase
      exact .inl ⟨rfl, rfl⟩
  | keepData =>
      cases hphase
      exact .inr ⟨by cases e <;> rfl, _, rfl⟩
  | deleteData =>
      cases hphase
      exact .inr ⟨rfl, _, rfl⟩
  | _ => cases hphase

theorem prunable_some {now retention last : ℕ} :
    prunable now retention (some last) = true ↔ last + retention ≤ now := by
  simp only [prunable, olderThanGrace, Option.any_some, decide_eq_true_eq]
  omega

theorem mem_listData {b : Bucket} {entry : String × Option ℕ} :
    entry ∈ FileMirror.listData b ↔ b.data[entry.1]? = some entry.2 :=
  Std.ExtTreeMap.mem_toList_iff_getElem?_eq_some

namespace Depot

variable {s t : Depot} {retention : ℕ}

theorem Initial.sound (h : s.Initial) : s.Sound retention where
  safe := by
    refine ⟨h.stocked, ?_⟩
    rw [h.uploads]
    exact List.forall_mem_nil _
  held := by
    unfold Device.Holds
    rw [h.idle]
    trivial
  dated := by
    refine ⟨fun hphase => absurd h.idle hphase, ?_, ?_⟩
    · rw [h.puts]
      exact fun _ _ => id
    · rw [h.idle]
      exact fun _ _ hphase => by cases hphase
  named := by
    rw [h.idle]
    exact fun hphase => by cases hphase

namespace Sound

theorem put {key : String} (h : s.Sound retention) (hstep : s.step (.put key) = some t) :
    t.Sound retention := by
  cases hstep
  have hdata : ∀ k ∈ s.bucket.data, k ∈ s.bucket.data.insert key (some s.now) :=
    fun k hk => Std.ExtTreeMap.mem_insert.mpr (.inr hk)
  refine ⟨⟨⟨fun m hm => (h.safe.stocked.snapshot m hm).mono hdata,
    fun delta hdelta => hdata _ (h.safe.stocked.log delta hdelta)⟩, ?_⟩,
    h.held.mono rfl hdata (List.Subset.refl _) fun _ _ => .inl,
    ⟨h.dated.purpose, ?_, h.dated.listing⟩, h.named⟩
  · intro upload hupload htime
    rcases List.mem_cons.mp hupload with rfl | hupload
    · exact Std.ExtTreeMap.mem_insert_self
    · exact hdata _ (h.safe.uploads upload hupload htime)
  · intro k modified hk
    simp only [StringMap.getElem?_insert] at hk ⊢
    split_ifs at hk ⊢
    · exact hk
    · exact h.dated.objects k modified hk

theorem tick (h : s.Sound retention) (hstep : s.step .tick = some t) : t.Sound retention := by
  cases hstep
  refine ⟨⟨h.safe.stocked, fun upload hupload htime => ?_⟩, h.held,
    ⟨h.dated.purpose, h.dated.objects, h.dated.listing⟩, h.named⟩
  exact h.safe.uploads upload hupload ((Nat.le_succ _).trans htime)

theorem mem_foldl_erase {sent uploads : List (String × ℕ)} :
    sent.foldl List.erase uploads ⊆ uploads := by
  induction sent generalizing uploads with
  | nil => exact List.Subset.refl _
  | cons upload sent ih => exact List.Subset.trans ih (List.erase_subset ..)

theorem logDelta {key : String} {sent : List (DeltaEntry × ℕ)} (h : s.Sound retention)
    (hproper : s.Proper retention (.logDelta key sent))
    (hstep : s.step (.logDelta key sent) = some t) : t.Sound retention := by
  cases hstep
  obtain ⟨hfresh, hsent⟩ := hproper
  have hobjects : ∀ delta ∈ sent.map Prod.fst, delta.objectKey ∈ s.bucket.data := by
    intro delta hdelta
    obtain ⟨p, hp, rfl⟩ := List.mem_map.mp hdelta
    obtain ⟨hunder, htime⟩ := hsent (p.1.objectKey, p.2) (List.mem_map.mpr ⟨p, hp, rfl⟩)
    exact h.safe.uploads _ hunder htime
  have hkeys : ∀ delta ∈ sent.map Prod.fst, delta.objectKey ∈
      (sentUploads sent ++ s.logged).map Prod.fst := by
    intro delta hdelta
    obtain ⟨p, hp, rfl⟩ := List.mem_map.mp hdelta
    exact List.mem_map.mpr ⟨(p.1.objectKey, p.2),
      List.mem_append_left _ (List.mem_map.mpr ⟨p, hp, rfl⟩), rfl⟩
  refine ⟨⟨⟨h.safe.stocked.snapshot, fun delta hdelta => ?_⟩, fun upload hupload htime =>
    h.safe.uploads upload (mem_foldl_erase hupload) htime⟩,
    h.held.mono rfl (fun _ => id) ?_ fun k object hobject => ?_,
    ⟨h.dated.purpose, h.dated.objects, h.dated.listing⟩, fun hphase upload hupload => ?_⟩
  · rcases hdelta.of_logDelta with hold | hnew
    · exact h.safe.stocked.log delta hold
    · exact hobjects delta hnew
  · exact List.map_subset _ (List.subset_append_right ..)
  · simp only [Bucket.logDelta, StringMap.getElem?_insert] at hobject
    split_ifs at hobject
    · cases hobject
      right
      intro read hread d hd
      cases hread
      exact hkeys d hd
    · exact .inl hobject
  · rcases List.mem_append.mp hupload with hnew | hold
    · obtain ⟨p, hp, rfl⟩ := List.mem_map.mp hnew
      exact ⟨p.1, Bucket.inLog_logged (List.mem_map_of_mem hp), rfl⟩
    · obtain ⟨delta, hdelta, hkey⟩ := h.named hphase upload hold
      exact ⟨delta, hdelta.logDelta hfresh, hkey⟩

theorem mem_erase_of_ne {data : StringMap (Option ℕ)} {k key : String} (hk : k ∈ data)
    (hne : k ≠ key) : k ∈ data.erase key := by
  rw [Std.ExtTreeMap.mem_erase]
  exact ⟨fun heq => hne (Std.compare_eq_iff_eq.mp heq).symm, hk⟩

theorem not_open {now : ℕ} {stamp : Option ℕ} {referenced : List String} {key : String}
    {modified : Option ℕ} {todo : List (String × Option ℕ)} {put : ℕ} (h : s.Sound retention)
    (htimely : s.Timely retention (.collector (.next now stamp)))
    (hphase : s.collector.phase = .collecting referenced ((key, modified) :: todo))
    (hkey : key ∉ referenced) (hold : prunable s.now retention modified = true) :
    ¬ s.Open retention (key, put) := by
  intro hopen
  cases modified with
  | none => cases hold
  | some last =>
      have hlisted := h.dated.listing referenced _ hphase (key, some last) (List.mem_cons_self ..)
      have hsoon := htimely referenced key (some last) todo hphase hkey ⟨put, hopen⟩ last hlisted
      have hlate := prunable_some.mp hold
      omega

theorem deletes {referenced : List String} {key : String} {modified : Option ℕ}
    {todo : List (String × Option ℕ)} (h : s.Sound retention)
    (hphase : s.collector.phase = .collecting referenced ((key, modified) :: todo))
    (hkey : key ∉ referenced) (hclosed : ∀ put, ¬ s.Open retention (key, put)) :
    Sound retention { s with
      collector := { s.collector with phase := .collecting referenced todo }
      bucket := { s.bucket with data := s.bucket.data.erase key } } := by
  have hheld := h.held
  unfold Device.Holds at hheld
  rw [hphase] at hheld
  obtain ⟨⟨m, hm, hreferenced⟩, hall⟩ := hheld
  have hunlogged : key ∉ s.logged.map Prod.fst := by
    intro hmem
    obtain ⟨upload, hupload, rfl⟩ := List.mem_map.mp hmem
    exact hclosed upload.2 (.inl hupload)
  refine ⟨⟨⟨fun m' hm' entry hentry hlive => ?_, fun delta hdelta => ?_⟩,
    fun upload hupload htime => ?_⟩, ⟨⟨m, hm, hreferenced⟩, hall⟩,
    ⟨fun _ => h.dated.purpose (by rw [hphase]; exact Phase.noConfusion), ?_, ?_⟩, ?_⟩
  · have hsame : m' = m := Bucket.Base.unique (b := s.bucket) hm' hm
    subst hsame
    refine mem_erase_of_ne (h.safe.stocked.snapshot m' hm entry hentry hlive) ?_
    rintro rfl
    exact hkey (hreferenced entry hentry)
  · refine mem_erase_of_ne (h.safe.stocked.log delta hdelta) ?_
    rintro rfl
    exact (hall delta hdelta).elim hkey hunlogged
  · refine mem_erase_of_ne (h.safe.uploads upload hupload htime) ?_
    rintro rfl
    exact hclosed upload.2 (.inr ⟨hupload, htime⟩)
  · intro k other hk
    rw [StringMap.getElem?_erase] at hk
    split_ifs at hk
    exact h.dated.objects k other hk
  · intro other rest hrest entry hentry
    cases hrest
    exact h.dated.listing referenced _ hphase entry (List.mem_cons_of_mem _ hentry)
  · exact fun _ => h.named (by rw [hphase]; rfl)

theorem dated_moves {e : Event} {d : Device} {b : Bucket} (h : s.Sound retention)
    (hproper : s.Proper retention (.collector e)) (hmoves : Moves s.bucket s.collector e d b)
    (hdata : b.data = s.bucket.data) :
    Dated retention { s with
      collector := d
      bucket := b
      logged := if s.collector.relists e then [] else s.logged
      listed := if s.collector.listsData e then s.puts else s.listed } := by
  refine ⟨fun hphase grace other hpurpose => ?_, fun key modified hkey => ?_,
    fun referenced todo hphase entry hentry => ?_⟩
  · rcases hmoves.purpose with hidle | ⟨p, rfl, hp⟩ | ⟨hbusy, hsame⟩
    · exact absurd hidle hphase
    · exact hproper.1 grace other (by rw [← hpurpose, hp])
    · exact h.dated.purpose hbusy grace other (hsame ▸ hpurpose)
  · exact h.dated.objects key modified (hdata ▸ hkey)
  · rcases hmoves.listing hphase with ⟨hlists, rfl⟩ | ⟨hlists, first, hbefore⟩
    · simp only [hlists, if_true]
      exact h.dated.objects _ _ (mem_listData.mp hentry)
    · simp only [hlists, Bool.false_eq_true, if_false]
      exact h.dated.listing referenced _ hbefore entry (List.mem_cons_of_mem _ hentry)

theorem collector {e : Event} (h : s.Sound retention)
    (hproper : s.Proper retention (.collector e)) (htimely : s.Timely retention (.collector e))
    (hstep : s.step (.collector e) = some t) : t.Sound retention := by
  obtain ⟨⟨d, b⟩, hdevice, rfl⟩ := Option.map_eq_some_iff.mp hstep
  have hmoves := Device.step_moves hdevice
  rcases Device.step_data hdevice with hdata |
    ⟨grace, other, now, stamp, referenced, key, modified, todo, hpurpose, rfl, hphase, hkey, hold,
      rfl, rfl⟩
  · obtain ⟨hheld, hstocked⟩ := h.held.moves hmoves h.safe.stocked hdata
    refine ⟨⟨hstocked, ?_⟩, ?_, h.dated_moves hproper hmoves hdata, fun hphase upload hupload => ?_⟩
    · exact hdata ▸ h.safe.uploads
    · dsimp only
      rw [apply_ite (List.map Prod.fst), List.map_nil]
      exact hheld
    · dsimp only at hupload
      split_ifs at hupload with hrelists
      · cases hupload
      · rcases hmoves.rereads hphase with hbegins | ⟨hbefore, hlog⟩
        · exact absurd hbegins hrelists
        · obtain ⟨delta, ⟨k, object, read, hobject, hread, hdelta⟩, hobjectKey⟩ :=
            h.named hbefore upload hupload
          exact ⟨delta, ⟨k, object, read, hlog ▸ hobject, hread, hdelta⟩, hobjectKey⟩
  · have hother := h.dated.purpose (by rw [hphase]; exact Phase.noConfusion) grace other hpurpose
    have hnow := (hproper.2 now stamp rfl).1
    subst hother hnow
    have hdeleted := h.deletes hphase hkey fun put => h.not_open htimely hphase hkey hold
    have hrelists : s.collector.relists (.next s.now stamp) = false := by
      unfold Device.relists
      rw [hphase]
    have hlists : s.collector.listsData (.next s.now stamp) = false := by
      unfold Device.listsData
      rw [hphase]
    simp only [hrelists, hlists, Bool.false_eq_true, if_false]
    exact hdeleted

theorem step {l : DepotLabel} (h : s.Sound retention) (hproper : s.Proper retention l)
    (htimely : s.Timely retention l) (hstep : s.step l = some t) : t.Sound retention := by
  cases l with
  | collector e => exact h.collector hproper htimely hstep
  | put key => exact h.put hstep
  | logDelta key sent => exact h.logDelta hproper hstep
  | tick => exact h.tick hstep

theorem timely_of_safe {l : DepotLabel} (h : s.Sound retention) (hproper : s.Proper retention l)
    (hstep : s.step l = some t) (hsafe : t.Safe retention) : s.Timely retention l := by
  cases l with
  | collector e =>
      cases e with
      | next now stamp =>
          rintro referenced key modified todo hphase hkey ⟨put, hopen⟩ last hlast
          by_contra hlate
          obtain ⟨⟨d, b⟩, hdevice, rfl⟩ := Option.map_eq_some_iff.mp hstep
          have hlisted := h.dated.listing referenced _ hphase (key, modified)
            (List.mem_cons_self ..)
          cases hlisted.symm.trans hlast
          have hnow := (hproper.2 now stamp rfl).1
          subst hnow
          have hbusy : s.collector.phase ≠ .idle := by
            rw [hphase]
            exact Phase.noConfusion
          have hold : prunable s.now retention (some last) = true :=
            prunable_some.mpr (not_lt.mp hlate)
          have hb : b = { s.bucket with data := s.bucket.data.erase key } :=
            Device.step_turn hphase hkey (h.dated.purpose hbusy) hold hdevice
          subst hb
          have hgone : key ∉ s.bucket.data.erase key := by simp
          rcases hopen with hlogged | ⟨hunder, htime⟩
          · obtain ⟨delta, hdelta, hobjectKey⟩ := h.named (by rw [hphase]; rfl) _ hlogged
            have hmem := hsafe.stocked.log delta hdelta
            rw [hobjectKey] at hmem
            exact hgone hmem
          · exact hgone (hsafe.uploads _ hunder htime)
      | _ => trivial
  | _ => trivial

end Sound

end Depot

/-- As long as the collector comes in time to every unreferenced object of an open upload, whatever
the newest snapshot or a delta refers to is in the bucket, with the objects of the uploads that can
still be logged; and it is no longer after the first turn that comes too late. -/
theorem collection_keeps_referenced_iff (retention : ℕ) (s t : Depot) (labels : List DepotLabel)
    (hinit : s.Initial)
    (hrun : Runs Depot.step (fun s l => s.Proper retention l ∧ s.Timely retention l) s labels t) :
    t.bucket.Stocked ∧ ∀ l u, t.Proper retention l → t.step l = some u →
      (u.Safe retention ↔ t.Timely retention l) := by
  have h : t.Sound retention := by
    refine hrun.invariant hinit.sound ?_
    intro _ _ _ hs hguard hstep
    exact hs.step hguard.1 hguard.2 hstep
  refine ⟨h.safe.stocked, fun l u hproper hstep =>
    ⟨h.timely_of_safe hproper hstep, fun htimely => ?_⟩⟩
  exact (h.step hproper htimely hstep).safe

def Depot.checks (retention : ℕ) (s : Depot) : DepotLabel → Bool
  | .collector (.start (.compact _ other)) => other = retention
  | .collector (.next now stamp) => now = s.now ∧ stamp = some s.now
  | .logDelta key sent => decide (key ∉ s.bucket.log) && (sentUploads sent).all fun upload =>
      upload ∈ s.uploads ∧ s.now ≤ upload.2 + retention
  | _ => true

theorem Depot.checks_proper (retention : ℕ) (s : Depot) (l : DepotLabel)
    (h : s.checks retention l = true) : s.Proper retention l := by
  cases l with
  | collector e =>
      constructor
      · rintro grace other rfl
        simpa [Depot.checks] using h
      · rintro now stamp rfl
        simpa [Depot.checks] using h
  | logDelta key sent =>
      simp only [Depot.checks, Bool.and_eq_true, decide_eq_true_eq, List.all_eq_true] at h
      exact h
  | put key => trivial
  | tick => trivial

def Depot.timely (retention : ℕ) (s : Depot) : DepotLabel → Bool
  | .collector (.next _ _) =>
      match s.collector.phase with
      | .collecting referenced ((key, _) :: _) =>
          key ∈ referenced || !((s.logged ++ s.uploads).any fun upload => upload.1 = key) ||
            (s.listed[key]?.join).all fun last => s.now < last + retention
      | _ => true
  | _ => true

theorem Depot.timely_timely (retention : ℕ) (s : Depot) (l : DepotLabel)
    (h : s.timely retention l = true) : s.Timely retention l := by
  cases l with
  | collector e =>
      cases e with
      | next now stamp =>
          rintro referenced key modified todo hphase hkey ⟨put, hopen⟩ last hlast
          have hmem : (key, put) ∈ s.logged ++ s.uploads :=
            List.mem_append.mpr (hopen.imp_right And.left)
          have hany : ((s.logged ++ s.uploads).any fun upload => upload.1 = key) = true :=
            List.any_eq_true.mpr ⟨_, hmem, decide_eq_true rfl⟩
          simpa [Depot.timely, hphase, hkey, hany, hlast] using h
      | _ => trivial
  | _ => trivial

/-- `MIN_OBJECT_RETENTION_SECS`. -/
def minRetention : ℕ := 604800

/-- A content object that nothing refers to, as old as the retention. -/
def staleDepot : Depot where
  collector := ⟨0, .read, .idle⟩
  bucket := ⟨∅, ∅, StringMap.single "data/a" (some 0)⟩
  now := minRetention
  uploads := []
  logged := []
  puts := StringMap.single "data/a" (some 0)
  listed := ∅

theorem staleDepot_initial : staleDepot.Initial where
  idle := rfl
  stocked := by
    constructor
    · rintro m (⟨-, rfl⟩ | ⟨g, object, -, hobject, -⟩)
      · intro e he
        obtain ⟨path, hentry⟩ := Manifest.mem_values.mp he
        simp at hentry
      · simp [staleDepot] at hobject
    · rintro delta ⟨key, object, read, hobject, -⟩
      simp [staleDepot] at hobject
  uploads := rfl
  puts := rfl

def depotRequest : DepotLabel := .collector (.next minRetention (some minRetention))

def listsObjects : List DepotLabel :=
  .collector (.start (.compact 0 minRetention)) :: List.replicate 11 depotRequest

def logsUpload (log key : String) : DepotLabel :=
  .logDelta log [({ DeltaEntry.sample "a" "phone" 1 10 none with objectKey := key }, minRetention)]

/-- One object is put before the listing, one after it, and both are logged; the stale one goes. -/
def uploadsBeside : List DepotLabel :=
  .put "data/b" :: listsObjects ++ [.put "data/c", logsUpload "log/k" "data/c", depotRequest,
    depotRequest, logsUpload "log/l" "data/b"]

theorem collection_keeps_referenced_beside : ∃ t,
    execute (checked (fun s l => s.checks minRetention l && s.timely minRetention l) Depot.step)
      staleDepot uploadsBeside = some t ∧
    t.bucket.data.keys = ["data/b", "data/c"] ∧ t.bucket.Stocked := by
  have hexecute : (execute (checked (fun s l => s.checks minRetention l && s.timely minRetention l)
      Depot.step) staleDepot uploadsBeside).map (fun t => t.bucket.data.keys) =
        some ["data/b", "data/c"] := by
    decide +kernel
  obtain ⟨t, ht, hkeys⟩ := Option.map_eq_some_iff.mp hexecute
  have hrun : Runs Depot.step (fun s l => s.Proper minRetention l ∧ s.Timely minRetention l)
      staleDepot uploadsBeside t := by
    refine checked_runs (fun s l hboth => ?_) ht
    rw [Bool.and_eq_true] at hboth
    exact ⟨s.checks_proper minRetention l hboth.1, s.timely_timely minRetention l hboth.2⟩
  exact ⟨t, ht, hkeys, (collection_keeps_referenced_iff minRetention staleDepot t _
    staleDepot_initial hrun).1⟩

/-- A path returns to an old content between the listing of the objects and the delete: its delta
names an object that is gone. -/
theorem collection_deletes_revived : ∃ t,
    Runs Depot.step (Depot.Proper minRetention) staleDepot
      (listsObjects ++ [.put "data/a", depotRequest, logsUpload "log/k" "data/a"]) t ∧
    staleDepot.Initial ∧ ¬ t.bucket.Stocked := by
  have hexecute : (execute (checked (Depot.checks minRetention) Depot.step) staleDepot
      (listsObjects ++ [.put "data/a", depotRequest, logsUpload "log/k" "data/a"])).map
        (fun t => (decide ("data/a" ∈ t.bucket.data),
          (t.bucket.log["log/k"]?.bind DeltaObject.payload).map (List.map DeltaEntry.objectKey))) =
        some (false, some ["data/a"]) := by
    decide +kernel
  obtain ⟨t, ht, hgone⟩ := Option.map_eq_some_iff.mp hexecute
  refine ⟨t, checked_runs (Depot.checks_proper minRetention) ht, staleDepot_initial, fun h => ?_⟩
  obtain ⟨hmissing, hlogged⟩ := Prod.mk.inj hgone
  obtain ⟨read, hread, hkeys⟩ := Option.map_eq_some_iff.mp hlogged
  obtain ⟨object, hobject, hpayload⟩ := Option.bind_eq_some_iff.mp hread
  obtain ⟨delta, hdelta, hkey⟩ := List.mem_map.mp (hkeys ▸ List.mem_singleton_self _ :
    "data/a" ∈ read.map DeltaEntry.objectKey)
  have hmem := h.log delta ⟨_, object, read, hobject, hpayload, hdelta⟩
  rw [hkey] at hmem
  exact of_decide_eq_false hmissing hmem

end FileMirror
