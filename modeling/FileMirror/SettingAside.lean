import FileMirror.Pass

set_option autoImplicit false

namespace FileMirror

/-- What a file's bytes say: a content, or a placeholder. -/
def DiskFile.bytes (f : DiskFile) : ContentHash × Option StubMeta := (f.contents, f.stub)

namespace LocalTree

def Holds (t : LocalTree) (bytes : ContentHash × Option StubMeta) : Prop :=
  ∃ (path : String) (file : DiskFile), t[path]? = some file ∧ file.bytes = bytes

/-- Nothing that some file of `t` says is missing from `t'`. -/
def Keeps (t t' : LocalTree) : Prop := ∀ bytes, t.Holds bytes → t'.Holds bytes

/-- A rename from `source` to `target` replaces the only file of its bytes. -/
def Overwrites (t : LocalTree) (source target : String) : Prop :=
  source ∈ t ∧ target ≠ source ∧ ∃ hit, t[target]? = some hit ∧
    ∀ (path : String) (file : DiskFile), t[path]? = some file → file.bytes = hit.bytes →
      path = target

variable {t : LocalTree} {source target : String} {bytes : ContentHash × Option StubMeta}

theorem getElem?_rename {file : DiskFile} (h : t[source]? = some file) (path : String) :
    (t.rename source target)[path]? =
      if path = target then some file else if path = source then none else t[path]? := by
  simp only [rename, h, StringMap.getElem?_insert, StringMap.getElem?_erase, eq_comm (b := path)]

theorem Holds.of_rename (h : (t.rename source target).Holds bytes) : t.Holds bytes := by
  cases hsource : t[source]? with
  | none =>
      rw [rename, hsource] at h
      exact h
  | some file =>
      obtain ⟨path, held, hheld, hbytes⟩ := h
      rw [getElem?_rename hsource] at hheld
      split_ifs at hheld
      · cases hheld
        exact ⟨source, file, hsource, hbytes⟩
      · exact ⟨path, held, hheld, hbytes⟩

theorem keeps_rename_iff : t.Keeps (t.rename source target) ↔ ¬ t.Overwrites source target := by
  constructor
  · rintro hkeeps ⟨hmem, hne, hit, hhit, honly⟩
    obtain ⟨file, hsource⟩ :=
      Option.isSome_iff_exists.mp (Std.ExtTreeMap.mem_iff_isSome_getElem?.mp hmem)
    obtain ⟨path, held, hheld, hbytes⟩ := hkeeps hit.bytes ⟨target, hit, hhit, rfl⟩
    rw [getElem?_rename hsource] at hheld
    split_ifs at hheld with htarget hpath
    · cases hheld
      exact hne (honly source file hsource hbytes).symm
    · exact htarget (honly path held hheld hbytes)
  · rintro hsafe bytes ⟨path, held, hheld, hbytes⟩
    cases hsource : t[source]? with
    | none =>
        rw [rename, hsource]
        exact ⟨path, held, hheld, hbytes⟩
    | some file =>
        by_contra hlost
        have hgone : ∀ (path : String) (held : DiskFile), t[path]? = some held →
            held.bytes = bytes → path = target ∧ target ≠ source := by
          intro path held hheld hbytes
          have hne : path ≠ source := by
            rintro rfl
            rw [hsource] at hheld
            cases hheld
            exact hlost ⟨target, file, by rw [getElem?_rename hsource, if_pos rfl], hbytes⟩
          have htarget : path = target := by
            by_contra htarget
            apply hlost
            refine ⟨path, held, ?_, hbytes⟩
            rw [getElem?_rename hsource, if_neg htarget, if_neg hne, hheld]
          exact ⟨htarget, htarget ▸ hne⟩
        obtain ⟨rfl, hne⟩ := hgone path held hheld hbytes
        apply hsafe
        refine ⟨Std.ExtTreeMap.mem_iff_isSome_getElem?.mpr (by rw [hsource]; rfl), hne, held,
          hheld, ?_⟩
        exact fun other file hfile hsame => (hgone other file hfile (hsame.trans hbytes)).1

theorem Keeps.refl : t.Keeps t := fun _ h => h

end LocalTree

def visited (baseline : Baseline) : List (RemoteConflict × String) → Preserving →
    List (Preserving × RemoteConflict × String)
  | [], _ => []
  | (conflict, timestamp) :: rest, r =>
      (r, conflict, timestamp) ::
        match preserveOne timestamp baseline r conflict with
        | none => []
        | some r => visited baseline rest r

def Clobbers (v : Preserving × RemoteConflict × String) : Prop :=
  ∃ source target, v.1.Renames v.2.2 v.2.1.loser source target ∧ v.1.tree.Overwrites source target

/-- The loser's version is about to be relocated to `path`. -/
def RelocatesTo (baseline : Baseline) (path : String)
    (v : Preserving × RemoteConflict × String) : Prop :=
  v.1.Relocates baseline v.2.1.loser ∧
    copyPath v.2.2 v.1.state.deviceName v.2.1.loser.path = path

/-- The live hash of `path` once the relocations have been done in turn. -/
def liveAfter (m : Manifest) (relocations : List (String × DeltaEntry)) (path : String) :
    Option ContentHash :=
  relocations.foldl
    (fun live relocation =>
      if relocation.1 = path then some relocation.2.plaintextHash else live)
    (m.liveHash path)

section Loop

variable {baseline : Baseline} {r r' : Preserving} {conflicts : List (RemoteConflict × String)}
  {m : Manifest} {path : String}

theorem preserveOne_keeps_iff {conflict : RemoteConflict} {timestamp : String}
    (h : preserveOne timestamp baseline r conflict = some r') :
    (r.tree.Keeps r'.tree ↔ ¬ Clobbers (r, conflict, timestamp)) ∧ r'.tree.Keeps r.tree := by
  obtain ⟨rfl, -, hstays⟩ | ⟨hrelocates, rfl⟩ | ⟨source, target, hrenames, rfl⟩ :=
    preserveOne_cases h
  · refine ⟨iff_of_true LocalTree.Keeps.refl ?_, LocalTree.Keeps.refl⟩
    rintro ⟨source, target, hrenames, -⟩
    exact hstays source target hrenames
  · refine ⟨iff_of_true LocalTree.Keeps.refl ?_, LocalTree.Keeps.refl⟩
    rintro ⟨source, target, hrenames, -⟩
    exact hrelocates.no_rename source target hrenames
  · refine ⟨?_, fun bytes hholds => hholds.of_rename⟩
    rw [LocalTree.keeps_rename_iff, not_iff_not]
    constructor
    · exact fun hover => ⟨source, target, hrenames, hover⟩
    · rintro ⟨other, target', hrenames', hover⟩
      obtain ⟨rfl, -⟩ := hrenames'.at_source hrenames.named
      have hsame := hrenames.copied.symm.trans hrenames'.copied
      cases hsame
      exact hover

theorem preserveLoop_keeps_iff (baseline : Baseline)
    (conflicts : List (RemoteConflict × String)) (r : Preserving) :
    (r.tree.Keeps (preserveLoop baseline conflicts r).1.tree ↔
      ∀ v ∈ visited baseline conflicts r, ¬ Clobbers v) ∧
    (preserveLoop baseline conflicts r).1.tree.Keeps r.tree := by
  induction conflicts generalizing r with
  | nil => exact ⟨iff_of_true LocalTree.Keeps.refl (by simp [visited]), LocalTree.Keeps.refl⟩
  | cons c conflicts ih =>
      rw [preserveLoop, visited]
      cases hone : preserveOne c.2 baseline r c.1 with
      | none =>
          refine ⟨iff_of_true LocalTree.Keeps.refl ?_, LocalTree.Keeps.refl⟩
          simp only [List.mem_singleton, forall_eq]
          rintro ⟨source, target, hrenames, -⟩
          exact (preserveOne_eq_none hone).2 source target hrenames
      | some r' =>
          obtain ⟨hfirst, hback⟩ := preserveOne_keeps_iff hone
          obtain ⟨hrest, hbacks⟩ := ih r'
          refine ⟨?_, fun bytes hholds => hback bytes (hbacks bytes hholds)⟩
          rw [List.forall_mem_cons, ← hfirst, ← hrest]
          constructor
          · intro hkeeps
            exact ⟨fun bytes hholds => hbacks bytes (hkeeps bytes hholds),
              fun bytes hholds => hkeeps bytes (hback bytes hholds)⟩
          · exact fun h bytes hholds => h.2 bytes (h.1 bytes hholds)

theorem preserveOne_live {conflict : RemoteConflict} {timestamp : String} (m : Manifest)
    (path : String)
    (h : preserveOne timestamp baseline r conflict = some r') :
    (RelocatesTo baseline path (r, conflict, timestamp) ∧
      liveAfter m r'.preserved.relocations path = some conflict.loser.plaintextHash) ∨
    (¬ RelocatesTo baseline path (r, conflict, timestamp) ∧
      liveAfter m r'.preserved.relocations path =
        liveAfter m r.preserved.relocations path) := by
  obtain ⟨rfl, hstays, -⟩ | ⟨hrelocates, rfl⟩ | ⟨source, target, hrenames, rfl⟩ :=
    preserveOne_cases h
  · exact .inr ⟨fun hr => hstays hr.1, rfl⟩
  · by_cases hpath : copyPath timestamp r.state.deviceName conflict.loser.path = path
    · exact .inl ⟨⟨hrelocates, hpath⟩, by simp [liveAfter, hpath]⟩
    · exact .inr ⟨fun hr => hpath hr.2, by simp [liveAfter, hpath]⟩
  · exact .inr ⟨fun hr => hr.1.no_rename source target hrenames, rfl⟩

/-- The last loser that is relocated to `path` has the content `hash`. -/
def LastRelocated (baseline : Baseline) (path : String) (hash : ContentHash)
    (vs : List (Preserving × RemoteConflict × String)) : Prop :=
  ∀ earlier v later, vs = earlier ++ v :: later → RelocatesTo baseline path v →
    (∀ u ∈ later, ¬ RelocatesTo baseline path u) → v.2.1.loser.plaintextHash = hash

theorem lastRelocated_cons {hash : ContentHash} {v : Preserving × RemoteConflict × String}
    {vs : List (Preserving × RemoteConflict × String)} :
    LastRelocated baseline path hash (v :: vs) ↔ LastRelocated baseline path hash vs ∧
      (RelocatesTo baseline path v → (∀ u ∈ vs, ¬ RelocatesTo baseline path u) →
        v.2.1.loser.plaintextHash = hash) := by
  constructor
  · intro h
    exact ⟨fun earlier u later hvs => h (v :: earlier) u later (by rw [hvs, List.cons_append]),
      h [] v vs rfl⟩
  · rintro ⟨hrest, hhead⟩ earlier u later hvs
    cases earlier with
    | nil =>
        cases hvs
        exact hhead
    | cons _ earlier =>
        rw [List.cons_append, List.cons.injEq] at hvs
        exact hrest earlier u later hvs.2

theorem preserveLoop_live_iff {hash : ContentHash} :
    liveAfter m (preserveLoop baseline conflicts r).1.preserved.relocations path = some hash ↔
      LastRelocated baseline path hash (visited baseline conflicts r) ∧
      ((∀ v ∈ visited baseline conflicts r, ¬ RelocatesTo baseline path v) →
        liveAfter m r.preserved.relocations path = some hash) := by
  induction conflicts generalizing r with
  | nil => simp [preserveLoop, visited, LastRelocated]
  | cons c conflicts ih =>
      rw [preserveLoop, visited, lastRelocated_cons]
      cases hone : preserveOne c.2 baseline r c.1 with
      | none =>
          have hstays : ¬ RelocatesTo baseline path (r, c.1, c.2) :=
            fun hr => (preserveOne_eq_none hone).1 hr.1
          simp [hstays, LastRelocated]
      | some r' =>
          simp only [List.forall_mem_cons]
          rw [ih]
          obtain ⟨hr, hlive⟩ | ⟨hr, hlive⟩ := preserveOne_live m path hone
          · rw [hlive, Option.some.injEq]
            tauto
          · rw [hlive]
            tauto

end Loop

/-- The conflicts of a pass, each with the time at which it is taken up. -/
def stamped (utc : ℕ → String) (merged : MergeResult) : List (RemoteConflict × String) :=
  merged.conflicts.zipIdx.map fun c => (c.1, utc c.2)

def NameTaken (live : String → Option ContentHash) (tree : LocalTree) (name : String) : Prop :=
  (∃ target, safeJoin name = some target ∧
    (target ∈ tree ∨ ((tree[stubRel target]?).bind DiskFile.stub).isSome)) ∨ (live name).isSome

def TakesUp (baseline : Baseline) (v : Preserving × RemoteConflict × String) : Prop :=
  v.1.Relocates baseline v.2.1.loser ∨ ∃ source target, v.1.Renames v.2.2 v.2.1.loser source target

def copyOf (v : Preserving × RemoteConflict × String) : String :=
  copyPath v.2.2 v.1.state.deviceName v.2.1.loser.path

/-- The names of conflicted copies that one conflict added. -/
def chosen (r r' : Preserving) : List String :=
  r'.preserved.renamed.drop r.preserved.renamed.length ++
    (r'.preserved.relocations.drop r.preserved.relocations.length).map Prod.fst

/-- What was said by some file, or by a live entry at a path without conflict, is still said by
some file or by the live entry of its path. -/
def SetAsideSpares (m : Manifest) (conflicts : List (RemoteConflict × String)) (tree : LocalTree)
    (state : DeviceState) : Prop :=
  let r := (preserveConflictLosers conflicts tree state).1
  tree.Keeps r.tree ∧
    ∀ path hash, m.liveHash path = some hash → (∀ c ∈ conflicts, c.1.loser.path ≠ path) →
      r.tree.Holds (hash, none) ∨ liveAfter m r.preserved.relocations path = some hash

/-- Nothing is lost, and no name that is chosen was taken, be it by what an earlier conflict of the
loop asks for. -/
structure SetAsideKeeps (m : Manifest) (conflicts : List (RemoteConflict × String))
    (tree : LocalTree) (state : DeviceState) : Prop where
  spares : SetAsideSpares m conflicts tree state
  free : ∀ v ∈ visited state.files conflicts ⟨tree, state, ⟨[], []⟩⟩, ∀ r',
    preserveOne v.2.2 state.files v.1 v.2.1 = some r' → ∀ name ∈ chosen v.1 r',
      ¬ NameTaken (liveAfter m v.1.preserved.relocations) v.1.tree name

section Names

variable {baseline : Baseline} {r r' : Preserving} {conflicts : List (RemoteConflict × String)}
  {m : Manifest} {path : String} {v : Preserving × RemoteConflict × String}

theorem chosen_copyOf (h : preserveOne v.2.2 baseline v.1 v.2.1 = some r') :
    (chosen v.1 r' = [copyOf v] ∧ TakesUp baseline v) ∨
      (chosen v.1 r' = [] ∧ ¬ TakesUp baseline v) := by
  obtain ⟨rfl, hstays, hleaves⟩ | ⟨hrelocates, rfl⟩ | ⟨source, target, hrenames, rfl⟩ :=
    preserveOne_cases h
  · refine .inr ⟨by simp [chosen], ?_⟩
    rintro (hrelocates | ⟨source, target, hrenames⟩)
    · exact hstays hrelocates
    · exact hleaves source target hrenames
  · exact .inl ⟨by simp [chosen, copyOf], .inl hrelocates⟩
  · exact .inl ⟨by simp [chosen, copyOf], .inr ⟨source, target, hrenames⟩⟩

theorem taken_of_clobbers {live : String → Option ContentHash} (h : Clobbers v) :
    TakesUp baseline v ∧ NameTaken live v.1.tree (copyOf v) := by
  obtain ⟨source, target, hrenames, -, -, hit, hhit, -⟩ := h
  have hmem : target ∈ v.1.tree := by
    rw [Std.ExtTreeMap.mem_iff_isSome_getElem?, hhit]
    rfl
  exact ⟨.inr ⟨source, target, hrenames⟩, .inl ⟨target, hrenames.copied, .inl hmem⟩⟩

theorem liveAfter_isSome {relocations : List (String × DeltaEntry)} {hash : ContentHash}
    (h : m.liveHash path = some hash) : (liveAfter m relocations path).isSome := by
  unfold liveAfter
  induction relocations using List.reverseRecOn with
  | nil =>
      rw [List.foldl_nil, h]
      rfl
  | append_singleton relocations relocation ih =>
      rw [List.foldl_concat]
      split_ifs
      · rfl
      · exact ih

theorem lastRelocated_of_free {hash : ContentHash} {vs : List (Preserving × RemoteConflict × String)}
    (hfree : ∀ v ∈ vs, TakesUp baseline v →
      ¬ NameTaken (liveAfter m v.1.preserved.relocations) v.1.tree (copyOf v))
    (hlive : m.liveHash path = some hash) : LastRelocated baseline path hash vs := by
  rintro earlier v later rfl ⟨hrelocates, hcopy⟩ -
  refine absurd (.inr ?_) (hfree v (List.mem_append_right _ List.mem_cons_self) (.inl hrelocates))
  rw [copyOf, hcopy]
  exact liveAfter_isSome hlive

end Names

/-- `conflict`: a failed rename only warns, and the row goes in any case. -/
def conflictEffects (clock : PassClock) (path : String) : Option (List Effect) :=
  (safeJoin (copyPath (clock.utc path) clock.deviceName path)).map fun target =>
    [.setAside path target, .removeRow path]

theorem actOne_conflict {clock : PassClock} {a : Applying} {path : String} :
    actOne clock a ⟨path, .conflict⟩ = (conflictEffects clock path).map fun effects =>
      flushIfFull clock.lamport { a with effects := a.effects ++ effects } := by
  simp only [actOne, conflictEffects, copyPath, Option.map_map]
  rfl

theorem preserveConflictLosers_live_iff {m : Manifest}
    {conflicts : List (RemoteConflict × String)} {tree : LocalTree} {state : DeviceState}
    {path : String} {hash : ContentHash} (h : m.liveHash path = some hash) :
    liveAfter m (preserveConflictLosers conflicts tree state).1.preserved.relocations path =
        some hash ↔
      LastRelocated state.files path hash (visited state.files conflicts ⟨tree, state, ⟨[], []⟩⟩)
    := by
  rw [preserveConflictLosers, preserveLoop_live_iff]
  exact and_iff_left fun _ => h

theorem setAsideSpares_iff (m : Manifest) (conflicts : List (RemoteConflict × String))
    (tree : LocalTree) (state : DeviceState) :
    (let vs := visited state.files conflicts ⟨tree, state, ⟨[], []⟩⟩;
      SetAsideSpares m conflicts tree state ↔
        (∀ v ∈ vs, ¬ Clobbers v) ∧
        ∀ path hash, m.liveHash path = some hash →
          (∀ c ∈ conflicts, c.1.loser.path ≠ path) → ¬ tree.Holds (hash, none) →
          LastRelocated state.files path hash vs) := by
  obtain ⟨hkeeps, hback⟩ := preserveLoop_keeps_iff state.files conflicts ⟨tree, state, ⟨[], []⟩⟩
  simp only [SetAsideSpares, ← hkeeps]
  refine and_congr_right fun hkept => ?_
  constructor
  · intro h path hash hlive hpath habsent
    rw [← preserveConflictLosers_live_iff hlive]
    exact (h path hash hlive hpath).resolve_left fun hheld => habsent (hback _ hheld)
  · intro h path hash hlive hpath
    by_cases hheld : tree.Holds (hash, none)
    · exact .inl (hkept _ hheld)
    · exact .inr ((preserveConflictLosers_live_iff hlive).mpr (h path hash hlive hpath hheld))

theorem setAsideKeeps_iff (m : Manifest) (conflicts : List (RemoteConflict × String))
    (tree : LocalTree) (state : DeviceState) :
    SetAsideKeeps m conflicts tree state ↔
      ∀ v ∈ visited state.files conflicts ⟨tree, state, ⟨[], []⟩⟩, TakesUp state.files v →
        ¬ NameTaken (liveAfter m v.1.preserved.relocations) v.1.tree (copyOf v) := by
  constructor
  · intro h v hv htakes
    cases hone : preserveOne v.2.2 state.files v.1 v.2.1 with
    | none =>
        obtain ⟨hstays, hleaves⟩ := preserveOne_eq_none hone
        rcases htakes with hrelocates | ⟨source, target, hrenames⟩
        · exact absurd hrelocates hstays
        · exact absurd hrenames (hleaves source target)
    | some r' =>
        rcases chosen_copyOf hone with ⟨hchosen, -⟩ | ⟨-, hnot⟩
        · exact h.free v hv r' hone _ (by rw [hchosen]; exact List.mem_singleton_self _)
        · exact absurd htakes hnot
  · intro hfree
    refine ⟨(setAsideSpares_iff m conflicts tree state).mpr ⟨fun v hv hclobbers => ?_, ?_⟩, ?_⟩
    · obtain ⟨htakes, htaken⟩ := taken_of_clobbers hclobbers
      exact hfree v hv htakes htaken
    · exact fun path hash hlive _ _ => lastRelocated_of_free hfree hlive
    · intro v hv r' hone name hname
      rcases chosen_copyOf hone with ⟨hchosen, htakes⟩ | ⟨hchosen, -⟩
      · rw [hchosen, List.mem_singleton] at hname
        rw [hname]
        exact hfree v hv htakes
      · rw [hchosen] at hname
        cases hname

def ConflictKeeps (m : Manifest) (now : String → ℕ) (clock : PassClock) (path : String) (w : World) :
    Prop :=
  ∀ effects ∈ conflictEffects clock path, w.tree.Keeps (effects.foldl (World.run now) w).tree ∧
    (path ∈ w.tree → ¬ NameTaken m.liveHash w.tree (copyPath (clock.utc path) clock.deviceName path))

theorem conflictKeeps_iff (m : Manifest) (now : String → ℕ) (clock : PassClock) (path : String)
    (w : World) : ConflictKeeps m now clock path w ↔
      ∀ target, safeJoin (copyPath (clock.utc path) clock.deviceName path) = some target →
        path ∈ w.tree →
          ¬ NameTaken m.liveHash w.tree (copyPath (clock.utc path) clock.deviceName path) := by
  simp only [ConflictKeeps, conflictEffects, Option.mem_def, Option.map_eq_some_iff,
    forall_exists_index, and_imp]
  constructor
  · exact fun h target htarget => (h _ target htarget rfl).2
  · rintro h _ target htarget rfl
    refine ⟨LocalTree.keeps_rename_iff.mpr ?_, h target htarget⟩
    rintro ⟨hmem, -, hit, hhit, -⟩
    have htaken : target ∈ w.tree := by
      rw [Std.ExtTreeMap.mem_iff_isSome_getElem?, hhit]
      rfl
    exact h target htarget hmem (.inl ⟨target, htarget, .inl htaken⟩)

/-- Setting conflicts aside does what it is for just when the names of the copies are free as they
come up. It loses nothing just when no rename takes the name of the only file of its bytes, and no
live path without conflict, whose content is not on the disk, has a loser of another content
relocated to it last. -/
theorem setting_aside_keeps_iff (m : Manifest) (conflicts : List (RemoteConflict × String))
    (tree : LocalTree) (state : DeviceState) (now : String → ℕ) (clock : PassClock) (a : Applying)
    (path : String) (w : World) :
    (let vs := visited state.files conflicts ⟨tree, state, ⟨[], []⟩⟩;
      (SetAsideKeeps m conflicts tree state ↔ ∀ v ∈ vs, TakesUp state.files v →
        ¬ NameTaken (liveAfter m v.1.preserved.relocations) v.1.tree (copyOf v)) ∧
      (SetAsideSpares m conflicts tree state ↔ (∀ v ∈ vs, ¬ Clobbers v) ∧
        ∀ path hash, m.liveHash path = some hash →
          (∀ c ∈ conflicts, c.1.loser.path ≠ path) → ¬ tree.Holds (hash, none) →
          LastRelocated state.files path hash vs)) ∧
    actOne clock a ⟨path, .conflict⟩ = (conflictEffects clock path).map (fun effects =>
      flushIfFull clock.lamport { a with effects := a.effects ++ effects }) ∧
    (ConflictKeeps a.manifest now clock path w ↔
      ∀ target, safeJoin (copyPath (clock.utc path) clock.deviceName path) = some target →
        path ∈ w.tree →
          ¬ NameTaken a.manifest.liveHash w.tree
            (copyPath (clock.utc path) clock.deviceName path)) :=
  ⟨⟨setAsideKeeps_iff m conflicts tree state, setAsideSpares_iff m conflicts tree state⟩,
    actOne_conflict, conflictKeeps_iff a.manifest now clock path w⟩

def copyOfCopy : List (RemoteConflict × String) × LocalTree × DeviceState :=
  let copy := "a (conflicted copy 1 from pc).txt"
  let file : ContentHash → DiskFile := fun hash => ⟨⟨1, 1⟩, hash, true, none⟩
  ([(⟨.sample copy "tv" 2 3 none, .sample copy "pc" 1 1 none⟩, "2")],
    (((∅ : LocalTree).insert copy (file 1)).insert "a (conflicted copy 1 from pc) (2).txt"
      (file 2)),
    ⟨"pc", "pc", (∅ : Baseline).insert copy (.synced copy 1 1), ∅, 1, 0⟩)

/-- The second copy's content is gone: the first was renamed over it. -/
theorem setting_aside_overwrites_copy :
    ¬ ∀ m conflicts tree state, SetAsideKeeps m conflicts tree state := by
  intro h
  obtain ⟨path, file, hfile, hbytes⟩ :=
    (h ∅ copyOfCopy.1 copyOfCopy.2.1 copyOfCopy.2.2).spares.1 (2, none)
      ⟨"a (conflicted copy 1 from pc) (2).txt", _, rfl, rfl⟩
  have hmem := Std.ExtTreeMap.mem_toList_iff_getElem?_eq_some.mpr hfile
  have hnone : ∀ e ∈ (preserveConflictLosers copyOfCopy.1 copyOfCopy.2.1
      copyOfCopy.2.2).1.tree.toList, e.2.bytes ≠ (2, none) := by decide +kernel
  exact hnone _ hmem hbytes

end FileMirror
