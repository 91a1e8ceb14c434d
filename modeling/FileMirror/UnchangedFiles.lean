import FileMirror.RecordedHashes
import Mathlib.Logic.Function.Basic

set_option autoImplicit false

namespace FileMirror

open Transitions

structure SourceFile where
  content : Bytes
  metadata : Metadata
  len_eq : metadata.len = content.length
  deriving DecidableEq

abbrev SourceFile.ctime (file : SourceFile) : ℤ := file.metadata.ctime

/-- `seen` has what the stats have found, the last one first. -/
structure EditedWorld (Id : Type) where
  disk : String → Option SourceFile
  seen : List (String × SourceFile)
  archive : ArchiveWorld Id

/-- `none` is written by removing the file; `backup` is any step of the backups but a stat. -/
inductive EditStep (Id : Type) where
  | write (path : String) (file : Option SourceFile)
  | stat (path name : String)
  | backup (a : ArchiveStep Id)

variable {Id : Type}

section Lookups

variable {β : Type} {l : List (String × β)} {p q : String} {b : β}

theorem mem_of_lookup (h : l.lookup p = some b) : (p, b) ∈ l := by
  obtain ⟨before, after, rfl, -⟩ := List.lookup_eq_some_iff.mp h
  exact List.mem_append_right _ List.mem_cons_self

theorem lookup_cons_of_ne (h : q ≠ p) : ((p, b) :: l).lookup q = l.lookup q := by
  rw [List.lookup_cons, beq_false_of_ne h]

theorem lookup_of_filter_ne (h : (l.filter fun entry => entry.1 ≠ p).lookup q = some b) :
    q ≠ p ∧ l.lookup q = some b := by
  have hne : q ≠ p := by
    have hmem := (List.mem_filter.mp (mem_of_lookup h)).2
    exact of_decide_eq_true hmem
  refine ⟨hne, ?_⟩
  induction l with
  | nil => cases h
  | cons entry l ih =>
      obtain ⟨other, a⟩ := entry
      by_cases hother : other = p
      · rw [List.filter_cons_of_neg (by simp [hother])] at h
        rw [lookup_cons_of_ne (hother ▸ hne)]
        exact ih h
      · rw [List.filter_cons_of_pos (by simp [hother])] at h
        by_cases hq : q = other
        · rw [hq, List.lookup_cons_self] at h ⊢
          exact h
        · rw [lookup_cons_of_ne hq] at h ⊢
          exact ih h

end Lookups

namespace EditedWorld

/-- The file that the last stat of the path saw is no longer there, and none with its ctime. -/
def Gone (w : EditedWorld Id) (path : String) (ctime : ℤ) : Prop :=
  ∀ file, w.disk path = some file → file.ctime ≠ ctime

/-- A write gives a later ctime than any stat of the path saw, and a file that is still the one of
its stat is read as it is. -/
def Advances (w : EditedWorld Id) : EditStep Id → Prop
  | .write path (some file) => ∀ old ∈ w.seen, old.1 = path → old.2.ctime < file.ctime
  | .backup (.archive path reading _) =>
      ∀ file, w.disk path = some file → w.seen.lookup path = some file →
        ∀ chunks, reading = .ok chunks → chunks.flatten = file.content
  | _ => True

/-- Besides, every stat shows a ctime that a node can record. -/
def Recordable (w : EditedWorld Id) (e : EditStep Id) : Prop :=
  w.Advances e ∧ ∀ path name, e = .stat path name →
    ∀ file, w.disk path = some file → unixTime file.ctime = some file.ctime

def empty : EditedWorld Id := ⟨fun _ => none, [], .empty⟩

variable [DecidableEq Id]

def step (ids : ContentIds Id) (w : EditedWorld Id) : EditStep Id → Option (EditedWorld Id)
  | .write path file => some { w with disk := Function.update w.disk path file }
  | .stat path name =>
      (w.disk path).bind fun file =>
        (w.archive.step ids (.stat path name file.metadata)).map fun archive =>
          { w with seen := (path, file) :: w.seen, archive }
  | .backup (.stat _ _ _) => none
  | .backup a => (w.archive.step ids a).map fun archive => { w with archive }

variable {ids : ContentIds Id} {w w' : EditedWorld Id} {path : String} {node old : Node Id}

/-- The node is that of a stat of its path, with the content of that moment or else with a ctime
that the path does not have any more. -/
def Recorded (ids : ContentIds Id) (w : EditedWorld Id) (entry : String × Node Id) : Prop :=
  entry.2.offloaded = false → ∃ file, (entry.1, file) ∈ w.seen ∧ entry.2.ctime = some file.ctime ∧
    (entry.2.Restores ids file.content ∨ w.Gone entry.1 file.ctime)

omit [DecidableEq Id] in
theorem Recorded.mono {entry : String × Node Id} (h : Recorded ids w entry)
    (hseen : ∀ entry ∈ w.seen, entry ∈ w'.seen)
    (hgone : ∀ path file, (path, file) ∈ w.seen → w.Gone path file.ctime → w'.Gone path file.ctime) :
    Recorded ids w' entry := by
  intro hfile
  obtain ⟨file, hmem, hctime, hcontent⟩ := h hfile
  exact ⟨file, hseen _ hmem, hctime, hcontent.imp_right (hgone _ _ hmem)⟩

structure Awaits (ids : ContentIds Id) (w : EditedWorld Id) (run : ArchiveRun Id) : Prop where
  statted : ∀ path node, run.statted.lookup path = some node →
    ∃ file name, w.seen.lookup path = some file ∧ node = Node.fromMetadata name file.metadata ∧
      node.ctime = some file.ctime
  reused : ∀ path node, run.statted.lookup path = some node →
    ∀ old, run.parent.resumed[path]? = some old ∨ run.parent.byPath[path]? = some old →
      old.offloaded = false → old.ctime = node.ctime →
        ∀ file, w.seen.lookup path = some file → old.Restores ids file.content

structure Current (ids : ContentIds Id) (w : EditedWorld Id) : Prop where
  same : ∀ path file, (path, file) ∈ w.seen → ∀ now, w.disk path = some now →
    now.ctime = file.ctime → now.content = file.content
  last : ∀ path file, w.seen.lookup path = some file →
    w.disk path = some file ∨ w.Gone path file.ctime
  keeps : w.archive.Keeps (Recorded ids w)
  awaits : ∀ run ∈ w.archive.run, Awaits ids w run

omit [DecidableEq Id] in
theorem empty_current : Current ids empty where
  same _ _ h := nomatch h
  last _ _ h := nomatch h
  keeps := ArchiveWorld.empty_keeps
  awaits _ h := nomatch h

omit [DecidableEq Id] in
theorem Gone.write {file : Option SourceFile} {ctime : ℤ} {other : String}
    (hadvances : ∀ new, file = some new → other = path → ctime < new.ctime)
    (h : other ≠ path → w.Gone other ctime) :
    Gone { w with disk := Function.update w.disk path file } other ctime := by
  intro now hnow
  change Function.update w.disk path file other = some now at hnow
  by_cases hother : other = path
  · rw [hother, Function.update_self] at hnow
    have hlt := hadvances now hnow hother
    omega
  · rw [Function.update_of_ne hother] at hnow
    exact h hother now hnow

omit [DecidableEq Id] in
theorem Current.write {file : Option SourceFile} (h : w.Current ids)
    (hadvances : w.Advances (.write path file)) :
    Current ids { w with disk := Function.update w.disk path file } := by
  have hlater : ∀ other seen, (other, seen) ∈ w.seen → ∀ new, file = some new → other = path →
      seen.ctime < new.ctime := by
    rintro other seen hmem new rfl hother
    exact hadvances _ hmem hother
  have hmono : ∀ entry, Recorded ids w entry →
      Recorded ids { w with disk := Function.update w.disk path file } entry := by
    intro entry hentry
    refine hentry.mono ?_ ?_
    · exact fun _ hmem => hmem
    · intro other seen hmem hgone
      exact Gone.write (hlater other seen hmem) fun _ => hgone
  refine ⟨?_, ?_, ?_, ?_⟩
  · intro other seen hmem now hnow hctime
    by_cases hother : other = path
    · change Function.update w.disk path file other = some now at hnow
      rw [hother, Function.update_self] at hnow
      have hlt := hlater other seen hmem now hnow hother
      omega
    · change Function.update w.disk path file other = some now at hnow
      rw [Function.update_of_ne hother] at hnow
      exact h.same other seen hmem now hnow hctime
  · intro other seen hseen
    have hmem := mem_of_lookup hseen
    by_cases hother : other = path
    · right
      exact Gone.write (hlater other seen hmem) fun hne => absurd hother hne
    · cases h.last other seen hseen with
      | inl hdisk =>
          left
          change Function.update w.disk path file other = some seen
          rw [Function.update_of_ne hother]
          exact hdisk
      | inr hgone =>
          right
          exact Gone.write (hlater other seen hmem) fun _ => hgone
  · exact h.keeps.mono hmono
  · exact fun run hrun => ⟨(h.awaits run hrun).statted, (h.awaits run hrun).reused⟩

omit [DecidableEq Id] in
theorem Current.stat {name : String} {file : SourceFile} {run : ArchiveRun Id} (h : w.Current ids)
    (hdisk : w.disk path = some file) (hctime : unixTime file.ctime = some file.ctime)
    (hrun : w.archive.run = some run) :
    Current ids
      { w with
        seen := (path, file) :: w.seen
        archive := { w.archive with run := some { run with
          statted := (path, Node.fromMetadata name file.metadata) :: run.statted } } } := by
  have hawaits := h.awaits run hrun
  refine ⟨?_, ?_, ?_, ?_⟩
  · intro other seen hmem now hnow hsame
    cases List.mem_cons.mp hmem with
    | inl hnew =>
        obtain ⟨hother, hseen⟩ := Prod.mk.inj hnew
        change w.disk other = some now at hnow
        rw [hother, hdisk] at hnow
        rw [hseen, ← Option.some.inj hnow]
    | inr hold => exact h.same other seen hold now hnow hsame
  · intro other seen hseen
    change ((path, file) :: w.seen).lookup other = some seen at hseen
    by_cases hother : other = path
    · rw [hother, List.lookup_cons_self] at hseen
      cases hseen
      rw [hother]
      exact .inl hdisk
    · rw [lookup_cons_of_ne hother] at hseen
      exact h.last other seen hseen
  · have hkeeps : w.archive.Keeps (Recorded ids { w with seen := (path, file) :: w.seen }) := by
      apply h.keeps.mono
      intro entry hentry
      refine hentry.mono ?_ ?_
      · exact fun _ hmem => List.mem_cons_of_mem _ hmem
      · exact fun _ _ _ hgone => hgone
    refine ⟨hkeeps.snapshots, hkeeps.journal, ?_, ?_⟩
    · rintro _ ⟨⟩
      exact hkeeps.parent run hrun
    · rintro _ ⟨⟩
      exact hkeeps.files run hrun
  · rintro _ ⟨⟩
    constructor
    · intro other node hnode
      change ((path, _) :: run.statted).lookup other = some node at hnode
      by_cases hother : other = path
      · rw [hother, List.lookup_cons_self] at hnode
        cases hnode
        refine ⟨file, name, ?_, rfl, hctime⟩
        rw [hother]
        exact List.lookup_cons_self
      · rw [lookup_cons_of_ne hother] at hnode
        obtain ⟨seen, called, hseen, hrest⟩ := hawaits.statted other node hnode
        exact ⟨seen, called, (lookup_cons_of_ne hother).trans hseen, hrest⟩
    · intro other node hnode old hold hfile hsame seen hseen
      change ((path, _) :: run.statted).lookup other = some node at hnode
      change ((path, file) :: w.seen).lookup other = some seen at hseen
      by_cases hother : other = path
      · rw [hother, List.lookup_cons_self] at hnode hseen
        cases hnode
        cases hseen
        -- the old node has the ctime of the file that is there, and so its content
        have hrecorded : Recorded ids w (other, old) := by
          cases hold with
          | inl hresumed => exact (h.keeps.parent run hrun).resumed other old hresumed
          | inr hbyPath => exact (h.keeps.parent run hrun).byPath other old hbyPath
        obtain ⟨earlier, hmem, hearlier, hcontent⟩ := hrecorded hfile
        rw [hother] at hmem hcontent
        have heq : file.ctime = earlier.ctime :=
          Option.some.inj (hctime.symm.trans (hsame.symm.trans hearlier))
        cases hcontent with
        | inl hrestores =>
            rw [h.same path earlier hmem file hdisk heq]
            exact hrestores
        | inr hgone => exact absurd heq (hgone file hdisk)
      · rw [lookup_cons_of_ne hother] at hnode hseen
        exact hawaits.reused other node hnode old hold hfile hsame seen hseen

omit [DecidableEq Id] in
theorem sameContent_ctime {old node : Node Id} (h : sameContent old node = true) :
    old.offloaded = false ∧ (old.ctime = none ∨ node.ctime = none ∨ old.ctime = node.ctime) := by
  simp only [sameContent, Bool.and_eq_true, Bool.or_eq_true, Bool.not_eq_true',
    Option.isNone_iff_eq_none, beq_iff_eq, or_assoc] at h
  exact ⟨h.1.1.1.1.1.1.1, h.2⟩

omit [DecidableEq Id] in
theorem Current.reuses {run : ArchiveRun Id} {file : SourceFile} (h : w.Current ids)
    (hrun : w.archive.run = some run) (hnode : run.statted.lookup path = some node)
    (hold : run.parent.resumed[path]? = some old ∨ run.parent.byPath[path]? = some old)
    (hsame : sameContent old node = true) (hseen : w.seen.lookup path = some file) :
    old.Restores ids file.content := by
  obtain ⟨hfile, hctimes⟩ := sameContent_ctime hsame
  have hrecorded : Recorded ids w (path, old) := by
    cases hold with
    | inl hresumed => exact (h.keeps.parent run hrun).resumed path old hresumed
    | inr hbyPath => exact (h.keeps.parent run hrun).byPath path old hbyPath
  obtain ⟨earlier, -, hearlier, -⟩ := hrecorded hfile
  obtain ⟨last, name, -, -, hlast⟩ := (h.awaits run hrun).statted path node hnode
  have hequal : old.ctime = node.ctime := by
    rcases hctimes with hnone | hnone | hequal
    · rw [hearlier] at hnone
      cases hnone
    · rw [hlast] at hnone
      cases hnone
    · exact hequal
  exact (h.awaits run hrun).reused path node hnode old hold hfile hequal file hseen

omit [DecidableEq Id] in
theorem Current.archiveFile {run : ArchiveRun Id} {reading : Except String (List Bytes)}
    {archived : Archived Id} {kept : Bool} (h : w.Current ids)
    (hadvances : w.Advances (.backup (.archive path reading kept) : EditStep Id))
    (hrun : w.archive.run = some run) (hnode : run.statted.lookup path = some node)
    (hok : archiveFile ids run.parent path node reading = .ok archived) :
    Recorded ids w (archived.path, archived.node) := by
  obtain ⟨last, name, hlast, -, hctime⟩ := (h.awaits run hrun).statted path node hnode
  intro _
  refine ⟨last, ?_, ?_, ?_⟩
  · rw [(archiveFile_ok hok).1]
    exact mem_of_lookup hlast
  · obtain ⟨-, ⟨old, -, -, -, harchived⟩ | ⟨chunks, -, -, harchived⟩⟩ := archiveFile_ok hok
    · rw [harchived]
      exact hctime
    · rw [harchived]
      exact hctime
  · obtain ⟨hpath, ⟨old, hold, hsame, -, harchived⟩ | ⟨chunks, hreading, -, harchived⟩⟩ :=
      archiveFile_ok hok
    · left
      have hrestores := h.reuses hrun hnode hold hsame hlast
      rw [harchived]
      exact hrestores
    · rw [hpath]
      cases h.last path last hlast with
      | inl hdisk =>
          left
          have hcontent := hadvances last hdisk hlast chunks hreading
          rw [harchived]
          exact ⟨chunks, rfl, hcontent⟩
      | inr hgone => exact .inr hgone

theorem Current.backup {a : ArchiveStep Id} {archive : ArchiveWorld Id} (h : w.Current ids)
    (hadvances : w.Advances (.backup a)) (hstat : ∀ path name metadata, a ≠ .stat path name metadata)
    (hstep : w.archive.step ids a = some archive) : Current ids { w with archive } := by
  refine ⟨h.same, h.last, ?_, ?_⟩
  · refine h.keeps.step hstep ?_ ?_
    · rintro path reading kept run node file rfl hrun hnode hok
      exact h.archiveFile hadvances hrun hnode hok
    · rintro path real metadata stub has reading kept run file rfl hrun hok hoffloaded
      obtain ⟨content, -, hnode, -⟩ := archiveOffloaded_ok hok
      rw [hnode] at hoffloaded
      cases hoffloaded
  · cases a with
    | begin parent loaded entries has =>
        obtain ⟨-, -, -, -, rfl⟩ := ArchiveWorld.begin_ok hstep
        rintro _ ⟨⟩
        exact ⟨nofun, nofun⟩
    | stat path name metadata => exact absurd rfl (hstat path name metadata)
    | archive path reading kept =>
        obtain ⟨run, hrun, hnode⟩ := Option.bind_eq_some_iff.mp hstep
        obtain ⟨node, -, rfl⟩ := Option.map_eq_some_iff.mp hnode
        intro later hlater
        obtain ⟨files, hfinish⟩ := ArchiveWorld.finish_run w.archive
          { run with statted := run.statted.filter fun file => file.1 ≠ path }
          (FileMirror.archiveFile ids run.parent path node reading) kept
        cases hfinish.symm.trans hlater
        have hawaits := h.awaits run hrun
        constructor
        · intro other stat hstat
          exact hawaits.statted other stat (lookup_of_filter_ne hstat).2
        · intro other stat hstat
          exact hawaits.reused other stat (lookup_of_filter_ne hstat).2
    | archiveOffloaded path real metadata stub has reading kept =>
        obtain ⟨run, hrun, rfl⟩ := Option.map_eq_some_iff.mp hstep
        intro later hlater
        obtain ⟨files, hfinish⟩ := ArchiveWorld.finish_run w.archive run
          (FileMirror.archiveOffloaded ids run.parent has path real metadata stub reading) kept
        cases hfinish.symm.trans hlater
        exact ⟨(h.awaits run hrun).statted, (h.awaits run hrun).reused⟩
    | saveSnapshot files removed =>
        obtain ⟨run, -, -, rfl⟩ := ArchiveWorld.saveSnapshot_ok hstep
        nofun
    | interrupt =>
        obtain ⟨run, hrun, rfl⟩ := Option.map_eq_some_iff.mp hstep
        nofun

theorem Current.step {e : EditStep Id} (h : w.Current ids) (hguard : w.Recordable e)
    (hstep : w.step ids e = some w') : w'.Current ids := by
  cases e with
  | write path file =>
      cases hstep
      exact h.write hguard.1
  | stat path name =>
      obtain ⟨file, hdisk, hmap⟩ := Option.bind_eq_some_iff.mp hstep
      obtain ⟨archive, harchive, rfl⟩ := Option.map_eq_some_iff.mp hmap
      obtain ⟨run, hrun, rfl⟩ := Option.map_eq_some_iff.mp harchive
      exact h.stat hdisk (hguard.2 path name rfl file hdisk) hrun
  | backup a =>
      by_cases hstat : ∃ path name metadata, a = .stat path name metadata
      · obtain ⟨path, name, metadata, rfl⟩ := hstat
        cases hstep
      · have hno : ∀ path name metadata, a ≠ .stat path name metadata := fun path name metadata heq =>
          hstat ⟨path, name, metadata, heq⟩
        have hmap : (w.archive.step ids a).map (fun archive => { w with archive }) = some w' := by
          cases a with
          | stat path name metadata => exact absurd rfl (hno path name metadata)
          | _ => exact hstep
        obtain ⟨archive, harchive, rfl⟩ := Option.map_eq_some_iff.mp hmap
        exact h.backup hguard.1 hno harchive

/-- Whatever the user writes and wherever the backups are interrupted, the chunks that are taken for
a file without reading it make the content that the file had when it was statted, provided that no
stat shows a ctime that a node cannot record. -/
theorem unchanged_files_are_current {steps : List (EditStep Id)} {run : ArchiveRun Id}
    {reading : Except String (List Bytes)} {archived : Archived Id}
    (hblob : Function.Injective ids.blobId)
    (hruns : Runs (step ids) Recordable empty steps w) (hrun : w.archive.run = some run)
    (hnode : run.statted.lookup path = some node)
    (hok : FileMirror.archiveFile ids run.parent path node reading = .ok archived)
    (hreused : archived.outcome = .resumed ∨ archived.outcome = .unchanged) :
    ∃ file name, w.seen.lookup path = some file ∧ node = Node.fromMetadata name file.metadata ∧
      ∀ bytes, archived.node.Restores ids bytes ↔ bytes = file.content := by
  have hcurrent : w.Current ids :=
    hruns.invariant empty_current fun _ _ _ h hguard hstep => h.step hguard hstep
  obtain ⟨file, name, hseen, hstat, -⟩ := (hcurrent.awaits run hrun).statted path node hnode
  refine ⟨file, name, hseen, hstat, ?_⟩
  have hrestores : archived.node.Restores ids file.content := by
    obtain ⟨-, ⟨old, hold, hsame, -, harchived⟩ | ⟨chunks, -, hread, -⟩⟩ := archiveFile_ok hok
    · have hcontent := hcurrent.reuses hrun hnode hold hsame hseen
      rw [harchived]
      exact hcontent
    · rcases hreused with hreused | hreused
      · rw [hreused] at hread
        cases hread
      · rw [hreused] at hread
        cases hread
  intro bytes
  constructor
  · exact fun hbytes => hbytes.unique hblob hrestores
  · rintro rfl
    exact hrestores

section Witness

open ArchiveWorld

def advances (w : EditedWorld Bytes) : EditStep Bytes → Bool
  | .write path (some file) =>
      w.seen.all fun old => old.1 != path || decide (old.2.ctime < file.ctime)
  | .backup (.archive path (.ok chunks) _) =>
      (w.disk path).all fun file =>
        w.seen.lookup path != some file || chunks.flatten == file.content
  | _ => true

theorem advances_of_check {w : EditedWorld Bytes} {e : EditStep Bytes} (hcheck : advances w e = true) :
    w.Advances e := by
  unfold advances at hcheck
  split at hcheck
  · intro old hold hpath
    have hlater := List.all_eq_true.mp hcheck old hold
    simp only [hpath, bne_self_eq_false, Bool.false_or, decide_eq_true_eq] at hlater
    exact hlater
  · rintro file hdisk hseen _ ⟨⟩
    rw [hdisk, Option.all_some, hseen, bne_self_eq_false, Bool.false_or, beq_iff_eq] at hcheck
    exact hcheck
  · next hwrite harchive =>
      unfold Advances
      split
      · next path file => exact absurd rfl (hwrite path file)
      · next path reading kept =>
          intro file _ _ chunks hreading
          rw [hreading] at harchive
          exact absurd rfl (harchive path chunks kept)
      · trivial

def recordable (w : EditedWorld Bytes) (e : EditStep Bytes) : Bool :=
  advances w e && match e with
    | .stat path _ => (w.disk path).all fun file => unixTime file.ctime == some file.ctime
    | _ => true

theorem recordable_of_check {w : EditedWorld Bytes} {e : EditStep Bytes}
    (hcheck : recordable w e = true) : w.Recordable e := by
  obtain ⟨hadvances, hstat⟩ := Bool.and_eq_true_iff.mp hcheck
  refine ⟨advances_of_check hadvances, ?_⟩
  rintro path name rfl file hdisk
  simp only [hdisk, Option.all_some, beq_iff_eq] at hstat
  exact hstat

def abcFile (ctime : ℤ) : SourceFile := ⟨abc, { abcMetadata with ctime }, rfl⟩

def abdFile : SourceFile := ⟨[97, 98, 100], { abcMetadata with ctime := 6000000000 }, rfl⟩

def storedNode (ctime : ℤ) : Node Bytes :=
  { (Node.fromMetadata "a" { abcMetadata with ctime } : Node Bytes) with
    content := [abcIds.blobId abc]
    contentHash := some abcHash }

def storedParent (ctime : ℤ) : ParentIndex Bytes :=
  (ParentIndex.load [("/d/a", storedNode ctime)]).resume (fun _ => true) []

/-- A backup of the file with this ctime, then what the user does, then the stat of the next run. -/
def twoRuns (ctime : ℤ) (edits : List (EditStep Bytes)) : List (EditStep Bytes) :=
  [.write "/d/a" (some (abcFile ctime)), .backup (.begin [] [] [] fun _ => true), .stat "/d/a" "a",
    .backup (.archive "/d/a" (.ok [abc]) true),
    .backup (.saveSnapshot [("/d/a", storedNode ctime)] true)] ++ edits ++
  [.backup (.begin [("/d/a", storedNode ctime)] [("/d/a", storedNode ctime)] [] fun _ => true),
    .stat "/d/a" "a"]

theorem touched_runs : (execute (checked recordable (step abcIds)) empty
    (twoRuns 5000000000 [.write "/d/b" (some abdFile)])).isSome := by decide +kernel

def touched : EditedWorld Bytes :=
  (execute (checked recordable (step abcIds)) empty
    (twoRuns 5000000000 [.write "/d/b" (some abdFile)])).get touched_runs

theorem unchanged_files_are_current_touched :
    ∃ file, touched.seen.lookup "/d/a" = some file ∧
      (storedNode 5000000000).Restores abcIds file.content := by
  have hruns : Runs (step abcIds) Recordable empty _ touched :=
    checked_runs (fun _ _ => recordable_of_check) (Option.some_get _).symm
  have hrun : touched.archive.run = some ⟨storedParent 5000000000,
      [("/d/a", Node.fromMetadata "a" abcMetadata)], []⟩ := by rfl
  have hok : archiveFile abcIds (storedParent 5000000000) "/d/a" (Node.fromMetadata "a" abcMetadata)
      (.error "") = .ok ⟨"/d/a", storedNode 5000000000, .unchanged⟩ := by rfl
  obtain ⟨file, name, hseen, -, hcurrent⟩ := unchanged_files_are_current abcIds_blobId hruns hrun
    (by decide +kernel) hok (.inr rfl)
  exact ⟨file, hseen, (hcurrent file.content).mpr rfl⟩

theorem rewritten_runs : (execute (checked advances (step abcIds)) empty
    (twoRuns 0 [.write "/d/a" (some abdFile)])).isSome := by decide +kernel

def rewritten : EditedWorld Bytes :=
  (execute (checked advances (step abcIds)) empty
    (twoRuns 0 [.write "/d/a" (some abdFile)])).get rewritten_runs

/-- A file whose ctime was the epoch has been written since, and is skipped. -/
theorem file_of_the_epoch_skipped :
    Runs (step abcIds) Advances empty (twoRuns 0 [.write "/d/a" (some abdFile)]) rewritten ∧
      rewritten.archive.run = some ⟨storedParent 0,
        [("/d/a", Node.fromMetadata "a" abdFile.metadata)], []⟩ ∧
      rewritten.seen.lookup "/d/a" = some abdFile ∧
      archiveFile abcIds (storedParent 0) "/d/a" (Node.fromMetadata "a" abdFile.metadata)
        (.ok [abdFile.content]) =
          .ok ⟨"/d/a", { storedNode 0 with ctime := some 6000000000 }, .unchanged⟩ ∧
      ¬ ({ storedNode 0 with ctime := some 6000000000 } : Node Bytes).Restores abcIds
        abdFile.content := by
  refine ⟨?_, by rfl, by decide +kernel, by rfl, ?_⟩
  · exact checked_runs (fun _ _ => advances_of_check) (Option.some_get _).symm
  · intro hrestores
    have habc : ({ storedNode 0 with ctime := some 6000000000 } : Node Bytes).Restores abcIds abc :=
      ⟨[abc], rfl, rfl⟩
    exact absurd (habc.unique abcIds_blobId hrestores) (by decide)

end Witness

end EditedWorld

end FileMirror
