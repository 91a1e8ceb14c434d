import FileMirror.Recreation

set_option autoImplicit false

/-!
# Edits that race a pass

What one pass does to the disk between its scan and its end, one rename or removal at a time, with
the user's writes in between. The source runs the transfers at once and the rest in order; here the
tasks may take their turns in any order.
-/

namespace FileMirror

open Transitions

structure TracedFile where
  file : DiskFile
  write : Option ℕ

/-- What is left to do of one action, of the removal of a stale placeholder or of `evict_one`. The
file that an eviction has moved aside is in `.mirror/tmp`, under a name that no one else uses. -/
inductive DiskTask where
  | download (entry : DeltaEntry) (mtimeNs : ℤ)
  | hydrate (entry : DeltaEntry) (mtimeNs : ℤ) (path : String)
  | unstub (path : String)
  | deleteLocal (path : String)
  | placeholder (stub : StubMeta)
  | conflict (path target : String)
  | upload (path : String)
  | sealing (path : String) (size : ℕ)
  | logging (content : ContentHash)
  | evict (entry : DeltaEntry) (evictedAt : ℕ)
  | standIn (stub : StubMeta) (stat : FileStat)
  | moveAside (path : String) (stat : FileStat)
  | restat (path : String) (stat : FileStat) (aside : TracedFile)
  | unlink (aside : TracedFile)
  | putBack (path : String) (aside : TracedFile)
  | leftAside (aside : TracedFile)

def DiskTask.aside : DiskTask → Option TracedFile
  | .restat _ _ f | .unlink f | .putBack _ f | .leftAside f => some f
  | _ => none

/-- What `fetch_verified` has put in its temporary file, once it has its name. -/
def fetchedFile (entry : DeltaEntry) (mtimeNs : ℤ) : TracedFile :=
  ⟨⟨⟨entry.size, mtimeNs⟩, entry.plaintextHash, true, none⟩, none⟩

structure Performed where
  tree : StringMap TracedFile
  task : Option DiskTask
  logged : List ContentHash

/-- The next step of a task on the disk, where none of its calls fails. An upload hashes the file in
one read and seals it in another, and what the object then holds is what the second one read. -/
def DiskTask.perform (tree : StringMap TracedFile) : DiskTask → Performed
  | .download entry mtimeNs => ⟨tree.insert entry.path (fetchedFile entry mtimeNs), none, []⟩
  | .hydrate entry mtimeNs path =>
      ⟨tree.insert entry.path (fetchedFile entry mtimeNs), some (.unstub path), []⟩
  | .unstub path => ⟨tree.erase (stubRel path), none, []⟩
  | .deleteLocal path => ⟨tree.erase path, some (.unstub path), []⟩
  | .placeholder stub => ⟨tree.insert (stubRel stub.path) ⟨stubFile stub, none⟩, none, []⟩
  | .conflict path target =>
      match tree[path]? with
      | none => ⟨tree, none, []⟩
      | some f => ⟨(tree.erase path).insert target f, none, []⟩
  | .upload path =>
      match tree[path]?.bind fun f => f.file.hashStable with
      | none => ⟨tree, none, []⟩
      | some (size, _, _) => ⟨tree, some (.sealing path size), []⟩
  | .sealing path size =>
      match tree[path]? with
      | none => ⟨tree, none, []⟩
      | some f =>
          if f.file.stat.size = size then ⟨tree, some (.logging f.file.contents), []⟩
          else ⟨tree, none, []⟩
  | .logging content => ⟨tree, none, [content]⟩
  | .evict entry evictedAt =>
      match tree[entry.path]?.bind fun f => f.file.hashStable with
      | none => ⟨tree, none, []⟩
      | some (size, mtimeNs, hash) =>
          if hash = entry.plaintextHash then
            let stub := StubMeta.new entry.path size hash entry.objectKey evictedAt (some mtimeNs)
            ⟨tree, some (.standIn stub ⟨size, mtimeNs⟩), []⟩
          else ⟨tree, none, []⟩
  | .standIn stub stat =>
      ⟨tree.insert (stubRel stub.path) ⟨stubFile stub, none⟩, some (.moveAside stub.path stat), []⟩
  | .moveAside path stat =>
      match tree[path]? with
      | none => ⟨tree, none, []⟩
      | some f => ⟨tree.erase path, some (.restat path stat f), []⟩
  | .restat path stat f =>
      ⟨tree, some (if f.file.stat = stat then .unlink f else .putBack path f), []⟩
  | .unlink _ => ⟨tree, none, []⟩
  | .putBack path f => ⟨tree.insert path f, some (.unstub path), []⟩
  | .leftAside f => ⟨tree, some (.leftAside f), []⟩

/-- `written` numbers what the user has written since the scan and not replaced himself; `logged`
lists the contents of the objects that the log refers to. -/
structure RaceWorld where
  tree : StringMap TracedFile
  tasks : List DiskTask
  logged : List ContentHash
  written : List (ℕ × ContentHash)
  writes : ℕ

/-- The user puts a file at a path, a task takes its next step, or it ends before its time. -/
inductive RaceLabel where
  | write (path : String) (file : DiskFile)
  | perform (i : ℕ)
  | ends (i : ℕ)

def replaceTask (tasks : List DiskTask) (i : ℕ) (task : Option DiskTask) : List DiskTask :=
  tasks.take i ++ (task.toList ++ tasks.drop (i + 1))

namespace RaceWorld

def step (w : RaceWorld) : RaceLabel → Option RaceWorld
  | .write path file =>
      let replaced := w.tree[path]?.bind TracedFile.write
      some { w with
        tree := w.tree.insert path ⟨file, some w.writes⟩
        written := (w.written.filter fun written => some written.1 ≠ replaced) ++
          [(w.writes, file.contents)]
        writes := w.writes + 1 }
  | .perform i =>
      w.tasks[i]?.map fun task =>
        let done := task.perform w.tree
        { w with
          tree := done.tree
          tasks := replaceTask w.tasks i done.task
          logged := w.logged ++ done.logged }
  | .ends i =>
      w.tasks[i]?.map fun task =>
        { w with tasks := replaceTask w.tasks i (task.aside.map .leftAside) }

/-- Some file under the root has this content, where it belongs or in `.mirror/tmp`. -/
def OnDisk (w : RaceWorld) (content : ContentHash) : Prop :=
  (∃ (path : String) (f : TracedFile), w.tree[path]? = some f ∧ f.file.contents = content) ∨
  ∃ task ∈ w.tasks, ∃ f, task.aside = some f ∧ f.file.contents = content

end RaceWorld

/-- The next step replaces or removes whatever is at `path`; only the eviction looks at its stat. -/
def DiskTask.endangers (tree : StringMap TracedFile) (path : String) (stat : FileStat) :
    DiskTask → Bool
  | .download entry _ | .hydrate entry _ _ => path = entry.path
  | .unstub original => path = stubRel original
  | .deleteLocal removed => path = removed
  | .placeholder stub | .standIn stub _ => path = stubRel stub.path
  | .conflict source target => tree.contains source && source ≠ target && path = target
  | .moveAside moved hashed => path = moved && stat = hashed
  | .putBack back _ => path = back
  | _ => false

/-- No step meets a file that the user wrote since the scan where it replaces or removes it, unless
a logged object has the content. -/
def Unraced (w : RaceWorld) : RaceLabel → Prop
  | .perform i => ∀ task, w.tasks[i]? = some task →
      ∀ (path : String) (f : TracedFile), w.tree[path]? = some f → f.write.isSome →
        task.endangers w.tree path f.file.stat = true → f.file.contents ∈ w.logged
  | .write _ _ | .ends _ => True

/-- The disk work of one action; the transfers settle the mtime of a fetched file and the key of a
relocated object. -/
def actionTask (r : Round) (w : World) (mtimeNs : String → ℤ) (objectKey : String → String)
    (action : Action) : Option DiskTask :=
  let path := action.path
  let entry := (r.passPlan w).manifest[path]?
  match action.kind with
  | .download => entry.map fun entry => .download entry (mtimeNs path)
  | .hydrate => entry.map fun entry => .hydrate entry (mtimeNs path) path
  | .upload => some (.upload path)
  | .relocate => (r.passPlan w).plan.relocations[path]?.map fun source =>
      .placeholder (StubMeta.new path source.size source.plaintextHash (objectKey path)
        (r.events.unix path) (some 0))
  | .createPlaceholder | .updatePlaceholder => entry.map fun entry =>
      .placeholder (StubMeta.new path entry.size entry.plaintextHash entry.objectKey
        (r.events.unix path) (stubMtime entry))
  | .deleteLocal => some (.deleteLocal path)
  | .deleteRemote => none
  | .conflict =>
      let name := conflictName path (r.events.utc path) (r.preserved w).state.deviceName
      (safeJoin (replaceName path name)).map (.conflict path)

def passTasks (r : Round) (w : World) (mtimeNs : String → ℤ) (objectKey : String → String) :
    List DiskTask :=
  let scan := scanAllWith r.options.ignored (r.preserved w).state.files (r.preserved w).tree
  let stale := scan.placeholders.keys.filter fun path => !(dropStale scan).contains path
  stale.map .unstub ++ (r.passPlan w).plan.actions.filterMap (actionTask r w mtimeNs objectKey)

/-- The pass has scanned the tree and is to evict these entries' files once it is done. -/
def raceStart (r : Round) (w : World) (mtimeNs : String → ℤ) (objectKey : String → String)
    (logged : List ContentHash) (evictions : List (DeltaEntry × ℕ)) : RaceWorld where
  tree := (r.preserved w).tree.map fun _ file => ⟨file, none⟩
  tasks := passTasks r w mtimeNs objectKey ++ evictions.map fun e => .evict e.1 e.2
  logged := logged
  written := []
  writes := 0

/-- The write is still there: at a path, or in a file moved aside. -/
def RaceWorld.Stands (w : RaceWorld) (n : ℕ) (content : ContentHash) : Prop :=
  (∃ (path : String) (f : TracedFile), w.tree[path]? = some f ∧ f.write = some n ∧
    f.file.contents = content) ∨
  ∃ task ∈ w.tasks, ∃ f, task.aside = some f ∧ f.write = some n ∧ f.file.contents = content

/-- An eviction removes what it has moved aside only if that is no write of the user's, or one
that the log has. -/
def DiskTask.Checked (logged : List ContentHash) : DiskTask → Prop
  | .restat _ stat f => f.write.isSome → f.file.stat = stat → f.file.contents ∈ logged
  | .unlink f => f.write.isSome → f.file.contents ∈ logged
  | _ => True

structure RaceWorld.Keeps (w : RaceWorld) : Prop where
  stands : ∀ n content, (n, content) ∈ w.written → content ∈ w.logged ∨ w.Stands n content
  checked : ∀ task ∈ w.tasks, task.Checked w.logged

section Tasks

variable {tasks : List DiskTask} {task u : DiskTask} {i : ℕ}

theorem mem_replaceTask {next : Option DiskTask} (h : u ∈ replaceTask tasks i next) :
    u ∈ tasks ∨ next = some u := by
  rw [replaceTask, List.mem_append, List.mem_append, Option.mem_toList] at h
  rcases h with htake | hnext | hdrop
  · exact .inl (List.mem_of_mem_take htake)
  · exact .inr hnext
  · exact .inl (List.mem_of_mem_drop hdrop)

theorem mem_replaceTask_of_next {next : Option DiskTask} (h : next = some u) :
    u ∈ replaceTask tasks i next := by
  rw [replaceTask, List.mem_append, List.mem_append, Option.mem_toList]
  exact .inr (.inl h)

theorem eq_or_mem_replaceTask (next : Option DiskTask) (hi : tasks[i]? = some task)
    (h : u ∈ tasks) :
    u = task ∨ u ∈ replaceTask tasks i next := by
  obtain ⟨hlt, hget⟩ := List.getElem?_eq_some_iff.mp hi
  have hsplit : tasks = tasks.take i ++ task :: tasks.drop (i + 1) := by
    rw [← hget, ← List.drop_eq_getElem_cons hlt, List.take_append_drop]
  rw [hsplit, List.mem_append, List.mem_cons] at h
  rw [replaceTask, List.mem_append, List.mem_append]
  rcases h with htake | heq | hdrop
  · exact .inr (.inl htake)
  · exact .inl heq
  · exact .inr (.inr (.inr hdrop))

end Tasks

section Perform

variable {tree : StringMap TracedFile} {task : DiskTask} {path : String} {f : TracedFile}

theorem perform_insert {key : String} {g : TracedFile} (h : tree[path]? = some f)
    (hne : path ≠ key) : (tree.insert key g)[path]? = some f := by
  rw [StringMap.getElem?_insert, if_neg hne.symm, h]

theorem perform_erase {key : String} (h : tree[path]? = some f) (hne : path ≠ key) :
    (tree.erase key)[path]? = some f := by
  rw [StringMap.getElem?_erase, if_neg hne.symm, h]

theorem DiskTask.perform_file (h : tree[path]? = some f)
    (hsafe : task.endangers tree path f.file.stat = false) :
    (∃ now : String, (task.perform tree).tree[now]? = some f) ∨
      ∃ next, (task.perform tree).task = some next ∧ next.aside = some f := by
  cases task with
  | download entry mtimeNs =>
      exact .inl ⟨path, perform_insert h (by simpa [endangers] using hsafe)⟩
  | hydrate entry mtimeNs original =>
      exact .inl ⟨path, perform_insert h (by simpa [endangers] using hsafe)⟩
  | unstub original => exact .inl ⟨path, perform_erase h (by simpa [endangers] using hsafe)⟩
  | deleteLocal removed => exact .inl ⟨path, perform_erase h (by simpa [endangers] using hsafe)⟩
  | placeholder stub => exact .inl ⟨path, perform_insert h (by simpa [endangers] using hsafe)⟩
  | standIn stub stat => exact .inl ⟨path, perform_insert h (by simpa [endangers] using hsafe)⟩
  | putBack back g => exact .inl ⟨path, perform_insert h (by simpa [endangers] using hsafe)⟩
  | conflict source target =>
      simp only [perform]
      cases hsource : tree[source]? with
      | none => exact .inl ⟨path, h⟩
      | some g =>
          have hcontains : tree.contains source = true := by
            rw [Std.ExtTreeMap.contains_eq_isSome_getElem?, hsource, Option.isSome_some]
          by_cases hpath : path = source
          · have hsame : g = f := by
              rw [hpath, hsource, Option.some.injEq] at h
              exact h
            refine .inl ⟨target, ?_⟩
            rw [StringMap.getElem?_insert, if_pos rfl, hsame]
          · have htarget : path ≠ target := by
              rintro rfl
              simp [endangers, hcontains, Ne.symm hpath] at hsafe
            exact .inl ⟨path, perform_insert (perform_erase h hpath) htarget⟩
  | moveAside moved hashed =>
      simp only [perform]
      cases hmoved : tree[moved]? with
      | none => exact .inl ⟨path, h⟩
      | some g =>
          by_cases hpath : path = moved
          · have hsame : g = f := by
              rw [hpath, hmoved, Option.some.injEq] at h
              exact h
            exact .inr ⟨_, rfl, by rw [hsame]; rfl⟩
          · exact .inl ⟨path, perform_erase h hpath⟩
  | upload sent =>
      refine .inl ⟨path, ?_⟩
      simp only [perform]
      split <;> exact h
  | sealing sent size =>
      refine .inl ⟨path, ?_⟩
      simp only [perform]
      split
      · exact h
      · split_ifs <;> exact h
  | evict entry evictedAt =>
      refine .inl ⟨path, ?_⟩
      simp only [perform]
      split
      · exact h
      · split_ifs <;> exact h
  | logging content => exact .inl ⟨path, h⟩
  | restat restated stat g => exact .inl ⟨path, h⟩
  | unlink g => exact .inl ⟨path, h⟩
  | leftAside g => exact .inl ⟨path, h⟩

theorem DiskTask.perform_aside (h : task.aside = some f) (hunlink : task ≠ .unlink f) :
    (∃ now : String, (task.perform tree).tree[now]? = some f) ∨
      ∃ next, (task.perform tree).task = some next ∧ next.aside = some f := by
  cases task with
  | restat path stat g =>
      cases h
      refine .inr ⟨_, rfl, ?_⟩
      split_ifs <;> rfl
  | unlink g =>
      cases h
      exact absurd rfl hunlink
  | putBack path g =>
      cases h
      refine .inl ⟨path, ?_⟩
      rw [perform, StringMap.getElem?_insert, if_pos rfl]
  | leftAside g =>
      cases h
      exact .inr ⟨_, rfl, rfl⟩
  | _ => cases h

theorem DiskTask.Checked.mono {logged more : List ContentHash} (h : task.Checked logged)
    (hmore : ∀ c ∈ logged, c ∈ more) : task.Checked more := by
  cases task with
  | restat path stat g => exact fun hwrite hstat => hmore _ (h hwrite hstat)
  | unlink g => exact fun hwrite => hmore _ (h hwrite)
  | _ => trivial

theorem DiskTask.perform_checked {logged : List ContentHash} {next : DiskTask}
    (h : task.Checked logged)
    (hsafe : ∀ (path : String) (f : TracedFile), tree[path]? = some f → f.write.isSome →
      task.endangers tree path f.file.stat = true → f.file.contents ∈ logged)
    (hnext : (task.perform tree).task = some next) : next.Checked logged := by
  cases task with
  | moveAside moved hashed =>
      simp only [perform] at hnext
      cases hmoved : tree[moved]? with
      | none => simp [hmoved] at hnext
      | some g =>
          simp only [hmoved, Option.some.injEq] at hnext
          subst hnext
          intro hwrite hstat
          exact hsafe moved g hmoved hwrite (by simp [endangers, hstat])
  | restat path stat g =>
      simp only [perform, Option.some.injEq] at hnext
      subst hnext
      split_ifs with hstat
      · exact fun hwrite => h hwrite hstat
      · trivial
  | upload sent =>
      simp only [perform] at hnext
      split at hnext <;> cases hnext
      trivial
  | sealing sent size =>
      simp only [perform] at hnext
      split at hnext
      · cases hnext
      · split_ifs at hnext
        cases hnext
        trivial
  | evict entry evictedAt =>
      simp only [perform] at hnext
      split at hnext
      · cases hnext
      · split_ifs at hnext
        cases hnext
        trivial
  | conflict source target =>
      simp only [perform] at hnext
      split at hnext <;> cases hnext
  | hydrate | deleteLocal | standIn | putBack | leftAside =>
      cases hnext
      trivial
  | download | unstub | placeholder | logging | unlink => cases hnext

end Perform

namespace RaceWorld

variable {w t : RaceWorld} {n : ℕ} {content : ContentHash}

theorem Keeps.write {path : String} {file : DiskFile} (h : w.Keeps)
    (hstep : w.step (.write path file) = some t) : t.Keeps := by
  rw [step, Option.some.injEq] at hstep
  subst hstep
  refine ⟨?_, h.checked⟩
  intro n content hwritten
  rw [List.mem_append, List.mem_filter, List.mem_singleton] at hwritten
  rcases hwritten with ⟨hbefore, hkept⟩ | hnew
  · refine (h.stands n content hbefore).imp_right ?_
    rintro (⟨p, f, hf, hwrite, hcontents⟩ | haside)
    · have hne : path ≠ p := by
        rintro rfl
        simp [hf, hwrite] at hkept
      refine .inl ⟨p, f, ?_, hwrite, hcontents⟩
      rw [StringMap.getElem?_insert, if_neg hne, hf]
    · exact .inr haside
  · cases hnew
    refine .inr (.inl ⟨path, ⟨file, some w.writes⟩, ?_, rfl, rfl⟩)
    rw [StringMap.getElem?_insert, if_pos rfl]

theorem Keeps.perform {i : ℕ} (h : w.Keeps) (hsafe : Unraced w (.perform i))
    (hstep : w.step (.perform i) = some t) : t.Keeps := by
  rw [step, Option.map_eq_some_iff] at hstep
  obtain ⟨task, hi, rfl⟩ := hstep
  have hmem : task ∈ w.tasks := List.mem_of_getElem? hi
  have hmore : ∀ c ∈ w.logged, c ∈ w.logged ++ (task.perform w.tree).logged :=
    fun c hc => List.mem_append_left _ hc
  constructor
  · intro n content hwritten
    rcases h.stands n content hwritten with hlogged | hstands
    · exact .inl (hmore content hlogged)
    -- what becomes of the file decides; `unlink` and a replacement ask the guard
    have hgoes : ∀ f : TracedFile, f.write = some n → f.file.contents = content →
        ((∃ now : String, (task.perform w.tree).tree[now]? = some f) ∨
          ∃ next, (task.perform w.tree).task = some next ∧ next.aside = some f) →
        Stands { w with
          tree := (task.perform w.tree).tree
          tasks := replaceTask w.tasks i (task.perform w.tree).task
          logged := w.logged ++ (task.perform w.tree).logged } n content := by
      rintro f hwrite hcontents (⟨now, hnow⟩ | ⟨next, hnext, haside⟩)
      · exact .inl ⟨now, f, hnow, hwrite, hcontents⟩
      · exact .inr ⟨next, mem_replaceTask_of_next hnext, f, haside, hwrite, hcontents⟩
    rcases hstands with ⟨path, f, hf, hwrite, hcontents⟩ | ⟨u, hu, f, haside, hwrite, hcontents⟩
    · cases hdanger : task.endangers w.tree path f.file.stat with
      | true =>
          have hlogged := hsafe task hi path f hf (by simp [hwrite]) hdanger
          exact .inl (hmore _ (hcontents ▸ hlogged))
      | false => exact .inr (hgoes f hwrite hcontents (DiskTask.perform_file hf hdanger))
    · rcases eq_or_mem_replaceTask (task.perform w.tree).task hi hu with rfl | hstays
      · by_cases hunlink : u = .unlink f
        · have hchecked := h.checked u hu
          rw [hunlink] at hchecked
          exact .inl (hmore _ (hcontents ▸ hchecked (by simp [hwrite])))
        · exact .inr (hgoes f hwrite hcontents (DiskTask.perform_aside haside hunlink))
      · exact .inr (.inr ⟨u, hstays, f, haside, hwrite, hcontents⟩)
  · intro u hu
    rcases mem_replaceTask hu with hbefore | hnext
    · exact (h.checked u hbefore).mono hmore
    · exact (DiskTask.perform_checked (h.checked task hmem) (hsafe task hi) hnext).mono hmore

theorem Keeps.ends {i : ℕ} (h : w.Keeps) (hstep : w.step (.ends i) = some t) : t.Keeps := by
  rw [step, Option.map_eq_some_iff] at hstep
  obtain ⟨task, hi, rfl⟩ := hstep
  constructor
  · intro n content hwritten
    refine (h.stands n content hwritten).imp_right ?_
    rintro (hpath | ⟨u, hu, f, haside, hwrite, hcontents⟩)
    · exact .inl hpath
    · rcases eq_or_mem_replaceTask (task.aside.map DiskTask.leftAside) hi hu with rfl | hstays
      · have hleft : u.aside.map DiskTask.leftAside = some (.leftAside f) := by
          rw [haside, Option.map_some]
        exact .inr ⟨.leftAside f, mem_replaceTask_of_next hleft, f, rfl, hwrite, hcontents⟩
      · exact .inr ⟨u, hstays, f, haside, hwrite, hcontents⟩
  · intro u hu
    rcases mem_replaceTask hu with hbefore | hleft
    · exact h.checked u hbefore
    · obtain ⟨f, -, rfl⟩ := Option.map_eq_some_iff.mp hleft
      trivial

theorem Keeps.step {label : RaceLabel} (h : w.Keeps) (hguard : Unraced w label)
    (hstep : w.step label = some t) : t.Keeps := by
  cases label with
  | write path file => exact h.write hstep
  | perform i => exact h.perform hguard hstep
  | ends i => exact h.ends hstep

theorem Stands.onDisk (h : w.Stands n content) : w.OnDisk content := by
  rcases h with ⟨path, f, hf, -, hcontents⟩ | ⟨task, htask, f, haside, -, hcontents⟩
  · exact .inl ⟨path, f, hf, hcontents⟩
  · exact .inr ⟨task, htask, f, haside, hcontents⟩

end RaceWorld

theorem actionTask_checked {r : Round} {w : World} {mtimeNs : String → ℤ}
    {objectKey : String → String} {action : Action} {task : DiskTask} {logged : List ContentHash}
    (h : actionTask r w mtimeNs objectKey action = some task) : task.Checked logged := by
  obtain ⟨path, kind⟩ := action
  cases kind <;> simp only [actionTask, Option.map_eq_some_iff, Option.some.injEq] at h
  case deleteRemote => cases h
  case upload | deleteLocal =>
    subst h
    trivial
  all_goals
    obtain ⟨_, -, rfl⟩ := h
    trivial

theorem raceStart_keeps {r : Round} {w : World} {mtimeNs : String → ℤ}
    {objectKey : String → String} {logged : List ContentHash}
    {evictions : List (DeltaEntry × ℕ)} :
    (raceStart r w mtimeNs objectKey logged evictions).Keeps := by
  constructor
  · intro n content hwritten
    cases hwritten
  · intro task htask
    simp only [raceStart, passTasks, List.mem_append, List.mem_map, List.mem_filterMap] at htask
    rcases htask with (⟨path, -, rfl⟩ | ⟨action, -, haction⟩) | ⟨e, -, rfl⟩
    · trivial
    · exact actionTask_checked haction
    · trivial

/-- In a pass that replaces or removes no write of the user's since the scan but one that the log
has, whatever he wrote and did not replace himself is on the disk or in a logged object. -/
theorem racing_edits_kept {r : Round} {device : World} {mtimeNs : String → ℤ}
    {objectKey : String → String} {logged : List ContentHash} {evictions : List (DeltaEntry × ℕ)}
    {labels : List RaceLabel} {w : RaceWorld}
    (hrun : Runs RaceWorld.step Unraced (raceStart r device mtimeNs objectKey logged evictions)
      labels w) :
    ∀ (n : ℕ) (content : ContentHash), (n, content) ∈ w.written →
      w.OnDisk content ∨ content ∈ w.logged := by
  have hkeeps : w.Keeps :=
    hrun.invariant raceStart_keeps fun _ _ _ h hguard hstep => h.step hguard hstep
  intro n content hwritten
  rcases hkeeps.stands n content hwritten with hlogged | hstands
  · exact .inr hlogged
  · exact .inl hstands.onDisk

/-- `Unraced`, for concrete runs. -/
def unraced (w : RaceWorld) : RaceLabel → Bool
  | .perform i => (w.tasks[i]?.toList).all fun task => w.tree.toList.all fun e =>
      !(e.2.write.isSome && task.endangers w.tree e.1 e.2.file.stat) ||
        e.2.file.contents ∈ w.logged
  | .write _ _ | .ends _ => true

theorem unraced_guards (w : RaceWorld) (label : RaceLabel) (h : unraced w label = true) :
    Unraced w label := by
  cases label with
  | write | ends => trivial
  | perform i =>
      intro task hi path f hf hwrite hdanger
      have htree : (path, f) ∈ w.tree.toList :=
        Std.ExtTreeMap.mem_toList_iff_getElem?_eq_some.mpr hf
      simp only [unraced, hi, Option.toList_some, List.all_cons, List.all_nil, Bool.and_true,
        List.all_eq_true] at h
      simpa [hwrite, hdanger] using h _ htree

/-- Another device's version of "a" waits to be fetched, here or, where there is one, evicted. -/
def racedStart (evictions : List (DeltaEntry × ℕ)) : RaceWorld :=
  raceStart (readingAgain (.sample "a" "tablet" 1 10 none)) freshDevice (fun _ => 0) id [10]
    evictions

def userFile : DiskFile := ⟨⟨1, 5⟩, 99, true, none⟩

/-- The download is over; the eviction of "a" meets a write of the user's between its hash and its
move. -/
def editDuringEviction : List RaceLabel :=
  [.perform 0, .perform 0, .write "a" userFile, .perform 0, .perform 0, .perform 0, .perform 0]

theorem editDuringEviction_runs :
    (execute (checked unraced RaceWorld.step) (racedStart [(.sample "a" "tablet" 1 10 none, 7)])
      editDuringEviction).isSome := by
  decide +kernel

def editPutBack : RaceWorld :=
  (execute (checked unraced RaceWorld.step) (racedStart [(.sample "a" "tablet" 1 10 none, 7)])
    editDuringEviction).get editDuringEviction_runs

theorem racing_edits_kept_put_back :
    editPutBack.written = [(0, 99)] ∧ (editPutBack.OnDisk 99 ∨ 99 ∈ editPutBack.logged) := by
  have hruns := checked_runs unraced_guards (Option.some_get editDuringEviction_runs).symm
  have hwritten : editPutBack.written = [(0, 99)] := by decide +kernel
  refine ⟨hwritten, racing_edits_kept hruns 0 99 ?_⟩
  exact hwritten ▸ List.mem_singleton_self _

/-- The user writes "a" after the scan that did not find it, and the download puts its file there. -/
def editBeforeDownload : List RaceLabel := [.write "a" userFile, .perform 0]

theorem editBeforeDownload_runs :
    (execute RaceWorld.step (racedStart []) editBeforeDownload).isSome := by
  decide +kernel

def editReplaced : RaceWorld :=
  (execute RaceWorld.step (racedStart []) editBeforeDownload).get editBeforeDownload_runs

theorem racing_edit_replaced :
    Runs RaceWorld.step Unguarded (racedStart []) editBeforeDownload editReplaced ∧
      (0, 99) ∈ editReplaced.written ∧ ¬ editReplaced.OnDisk 99 ∧ 99 ∉ editReplaced.logged := by
  refine ⟨execute_runs (Option.some_get editBeforeDownload_runs).symm, by decide +kernel, ?_,
    by decide +kernel⟩
  have htree : editReplaced.tree.toList.all (fun e => e.2.file.contents ≠ 99) = true := by
    decide +kernel
  have htasks : editReplaced.tasks.length = 0 := by decide +kernel
  rintro (⟨path, f, hf, hcontents⟩ | ⟨task, htask, -⟩)
  · have hmem := Std.ExtTreeMap.mem_toList_iff_getElem?_eq_some.mpr hf
    have hne := List.all_eq_true.mp htree _ hmem
    simp [hcontents] at hne
  · rw [List.length_eq_zero_iff.mp htasks] at htask
    cases htask

end FileMirror
