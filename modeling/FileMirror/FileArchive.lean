import FileMirror.LocalTree
import FileMirror.Transitions

set_option autoImplicit false

/-!
# Archiving the content of files

`archiver.rs`: a file's chunks are taken from the journal of an unfinished run, from the parent
snapshot, or from the file, and those of a placeholder from an earlier node with its hash or from the
mirror's copy. A snapshot is kept as the list of its files, with their paths.
-/

namespace FileMirror

abbrev Bytes := List UInt8

inductive NodeType where
  | file
  | dir
  | symlink
  deriving DecidableEq

structure Metadata where
  mode : ℕ
  uid : ℕ
  gid : ℕ
  len : ℕ
  mtime : ℤ
  ctime : ℤ
  dev : ℕ
  ino : ℕ
  nlink : ℕ
  deriving DecidableEq

structure Node (Id : Type) where
  name : String
  nodeType : NodeType
  mode : ℕ
  uid : ℕ
  gid : ℕ
  size : ℕ
  mtime : ℤ
  ctime : Option ℤ
  content : List Id
  device : ℕ
  inode : ℕ
  links : ℕ
  contentHash : Option String
  offloaded : Bool
  deriving DecidableEq

/-- `0o7777` -/
def modeMask : ℕ := 4095

def chronoRange (seconds : ℤ) : Bool :=
  decide (-8334601228800 ≤ seconds) && decide (seconds ≤ 8210266876799)

/-- A time of exactly zero stands for one that is not known. -/
def unixTime (time : ℤ) : Option ℤ :=
  if time ≠ 0 ∧ chronoRange (time / 1000000000) = true then some time else none

variable {Id : Type}

def Node.fromMetadata (name : String) (metadata : Metadata) : Node Id where
  name
  nodeType := .file
  mode := metadata.mode &&& modeMask
  uid := metadata.uid
  gid := metadata.gid
  size := metadata.len
  mtime := (unixTime metadata.mtime).getD 0
  ctime := unixTime metadata.ctime
  content := []
  device := metadata.dev
  inode := metadata.ino
  links := metadata.nlink
  contentHash := none
  offloaded := false

def sameContent (old current : Node Id) : Bool :=
  !old.offloaded && old.nodeType == .file && current.nodeType == .file &&
    old.size == current.size && old.mtime == current.mtime && old.mode == current.mode &&
    (old.inode == 0 || current.inode == 0 || old.inode == current.inode) &&
    (old.ctime.isNone || current.ctime.isNone || old.ctime == current.ctime)

structure ContentIds (Id : Type) where
  blobId : Bytes → Id
  blake3 : Bytes → String

structure ParentIndex (Id : Type) where
  byPath : StringMap (Node Id)
  byHash : StringMap (Node Id)
  resumed : StringMap (Node Id)

namespace ParentIndex

def loadNode (parent : ParentIndex Id) (file : String × Node Id) : ParentIndex Id :=
  if file.2.nodeType = .file then
    { parent with
      byHash := match file.2.contentHash with
        | some hash => parent.byHash.insertIfNew hash file.2
        | none => parent.byHash
      byPath := parent.byPath.insert file.1 file.2 }
  else parent

/-- `load_parent`, where `files` are those in the trees that could be read. -/
def load (files : List (String × Node Id)) : ParentIndex Id := files.foldl loadNode ⟨∅, ∅, ∅⟩

def resumeEntry (has : Id → Bool) (parent : ParentIndex Id) (entry : String × Node Id) :
    ParentIndex Id :=
  if entry.2.content.all has then
    { parent with
      byHash := match entry.2.contentHash with
        | some hash => parent.byHash.insert hash entry.2
        | none => parent.byHash
      resumed := parent.resumed.insert entry.1 entry.2 }
  else parent

def resume (parent : ParentIndex Id) (has : Id → Bool) (entries : List (String × Node Id)) :
    ParentIndex Id :=
  entries.foldl (resumeEntry has) parent

end ParentIndex

structure Chunked (Id : Type) where
  content : List Id
  hash : String
  total : ℕ

def storeChunks (ids : ContentIds Id) (chunks : List Bytes) : Chunked Id where
  content := chunks.map ids.blobId
  hash := ids.blake3 chunks.flatten
  total := (chunks.map List.length).sum

inductive FileOutcome where
  | new
  | changed
  | unchanged
  | resumed
  | offloadedReused
  | offloadedDownloaded
  deriving DecidableEq

structure Archived (Id : Type) where
  path : String
  node : Node Id
  outcome : FileOutcome

def FileOutcome.recorded : FileOutcome → Bool
  | .new | .changed | .offloadedDownloaded => true
  | _ => false

/-- `reading` is what opening, reading and chunking the file comes to; an error leaves it out of the
snapshot or ends the run. -/
def archiveFile (ids : ContentIds Id) (parent : ParentIndex Id) (path : String) (node : Node Id)
    (reading : Except String (List Bytes)) : Except String (Archived Id) :=
  match parent.resumed[path]?.filter (sameContent · node) with
  | some done =>
      .ok ⟨path, { node with content := done.content, contentHash := done.contentHash }, .resumed⟩
  | none =>
      match parent.byPath[path]?.filter (sameContent · node) with
      | some old =>
          .ok ⟨path, { node with content := old.content, contentHash := old.contentHash },
            .unchanged⟩
      | none => do
          let chunked := storeChunks ids (← reading)
          let outcome := if parent.byPath.contains path then FileOutcome.changed else .new
          .ok ⟨path, { node with
            size := chunked.total
            contentHash := some chunked.hash
            content := chunked.content }, outcome⟩

/-- `Path::with_file_name` of a path with a slash -/
def withFileName (path real : String) : String :=
  String.ofList (path.toList.reverse.dropWhile (· ≠ '/')).reverse ++ real

def offloadedNode (real : String) (metadata : Metadata) (stub : StubMeta) : Node Id :=
  { Node.fromMetadata real metadata with
    inode := 0
    device := 0
    links := 0
    ctime := none
    size := stub.size
    offloaded := true
    contentHash := some (stub.hash.map Char.toLower) }

def reusable (parent : ParentIndex Id) (has : Id → Bool) (stub : StubMeta) : Option (Node Id) :=
  parent.byHash[stub.hash.map Char.toLower]?.filter fun old =>
    old.size == stub.size && old.content.all has

def offloadedTimes (node : Node Id) (stub : StubMeta) (reusable : Option (Node Id)) : Node Id :=
  { node with
    mtime := match stub.mtimeNs, reusable with
      | some ns, _ => ns
      | none, some old => old.mtime
      | none, none => node.mtime
    mode := match stub.mode, reusable with
      | some mode, _ => mode &&& modeMask
      | none, some old => old.mode
      | none, none => 420 }

/-- `reading` is what the source and the chunker come to. -/
def archiveOffloaded (ids : ContentIds Id) (parent : ParentIndex Id) (has : Id → Bool)
    (path real : String) (metadata : Metadata) (stub : StubMeta) (reading : Except String (List Bytes)) :
    Except String (Archived Id) :=
  let node := offloadedTimes (offloadedNode real metadata stub) stub (reusable parent has stub)
  match reusable parent has stub with
  | some old => .ok ⟨withFileName path real, { node with content := old.content }, .offloadedReused⟩
  | none => do
      let chunked := storeChunks ids (← reading)
      if chunked.hash ≠ stub.hash.map Char.toLower ∨ chunked.total ≠ stub.size then
        .error s!"the content fetched for {path} ({chunked.total} bytes) does not match its ID; the repository is corrupt"
      else .ok ⟨withFileName path real, { node with content := chunked.content },
        .offloadedDownloaded⟩

/-- `statted` has the files whose metadata has been taken, and `files` those that are archived. -/
structure ArchiveRun (Id : Type) where
  parent : ParentIndex Id
  statted : List (String × Node Id)
  files : List (String × Node Id)

/-- Backups of one set of paths, one after the other. -/
structure ArchiveWorld (Id : Type) where
  snapshots : List (List (String × Node Id))
  journal : List (String × Node Id)
  run : Option (ArchiveRun Id)

/-- Of the parent's files those in `loaded` can be read, and of the journal's lines those in
`entries`; `has` is the index of the moment, `kept` whether the journal could be written, and
`removed` whether it could be removed. -/
inductive ArchiveStep (Id : Type) where
  | begin (parent loaded entries : List (String × Node Id)) (has : Id → Bool)
  | stat (path name : String) (metadata : Metadata)
  | archive (path : String) (reading : Except String (List Bytes)) (kept : Bool)
  | archiveOffloaded (path real : String) (metadata : Metadata) (stub : StubMeta) (has : Id → Bool)
      (reading : Except String (List Bytes)) (kept : Bool)
  | saveSnapshot (files : List (String × Node Id)) (removed : Bool)
  | interrupt

namespace ArchiveWorld

/-- An archived file goes to the run, and to the journal if it was read. -/
def finish (w : ArchiveWorld Id) (run : ArchiveRun Id) (archived : Except String (Archived Id))
    (kept : Bool) : ArchiveWorld Id :=
  match archived with
  | .error _ => { w with run := some run }
  | .ok file =>
      { w with
        journal :=
          if file.outcome.recorded && kept then w.journal ++ [(file.path, file.node)] else w.journal
        run := some { run with files := run.files ++ [(file.path, file.node)] } }

variable [DecidableEq Id]

def step (ids : ContentIds Id) (w : ArchiveWorld Id) : ArchiveStep Id → Option (ArchiveWorld Id)
  | .begin parent loaded entries has =>
      match w.run with
      | some _ => none
      | none =>
          if (parent = [] ∨ parent ∈ w.snapshots) ∧ loaded.isSublist parent = true ∧
              entries.isSublist w.journal = true then
            some { w with run := some ⟨(ParentIndex.load loaded).resume has entries, [], []⟩ }
          else none
  | .stat path name metadata =>
      w.run.map fun run =>
        { w with run := some { run with
          statted := (path, Node.fromMetadata name metadata) :: run.statted } }
  | .archive path reading kept =>
      w.run.bind fun run =>
        (run.statted.lookup path).map fun node =>
          w.finish { run with statted := run.statted.filter fun file => file.1 ≠ path }
            (archiveFile ids run.parent path node reading) kept
  | .archiveOffloaded path real metadata stub has reading kept =>
      w.run.map fun run =>
        w.finish run (archiveOffloaded ids run.parent has path real metadata stub reading) kept
  | .saveSnapshot files removed =>
      w.run.bind fun run =>
        if run.statted = [] ∧ files.isPerm run.files = true then
          some ⟨files :: w.snapshots, if removed then [] else w.journal, none⟩
        else none
  | .interrupt => w.run.map fun _ => { w with run := none }

def empty : ArchiveWorld Id := ⟨[], [], none⟩

end ArchiveWorld

namespace ParentIndex

variable {P : String × Node Id → Prop} {parent : ParentIndex Id} {has : Id → Bool}
  {file : String × Node Id} {files entries : List (String × Node Id)}

/-- Whatever the index knows has the property, and is listed under its own hash. -/
structure Holds (P : String × Node Id → Prop) (parent : ParentIndex Id) : Prop where
  byPath : ∀ path node, parent.byPath[path]? = some node → P (path, node)
  byHash : ∀ hash node, parent.byHash[hash]? = some node →
    node.contentHash = some hash ∧ ∃ path, P (path, node)
  resumed : ∀ path node, parent.resumed[path]? = some node → P (path, node)

theorem Holds.mono {Q : String × Node Id → Prop} (h : parent.Holds P) (hPQ : ∀ file, P file → Q file) :
    parent.Holds Q where
  byPath path node hnode := hPQ _ (h.byPath path node hnode)
  byHash hash node hnode :=
    ⟨(h.byHash hash node hnode).1, (h.byHash hash node hnode).2.imp fun _ => hPQ _⟩
  resumed path node hnode := hPQ _ (h.resumed path node hnode)

theorem Holds.loadNode (h : parent.Holds P) (hfile : P file) : (parent.loadNode file).Holds P := by
  unfold ParentIndex.loadNode
  split_ifs
  · refine ⟨?_, ?_, h.resumed⟩
    · intro path node hnode
      change (parent.byPath.insert file.1 file.2)[path]? = some node at hnode
      rw [StringMap.getElem?_insert] at hnode
      split_ifs at hnode with hpath
      · cases hnode
        exact hpath ▸ hfile
      · exact h.byPath path node hnode
    · intro hash node hnode
      cases hcontent : file.2.contentHash with
      | none =>
          simp only [hcontent] at hnode
          exact h.byHash hash node hnode
      | some recorded =>
          simp only [hcontent, Std.ExtTreeMap.getElem?_insertIfNew, Std.compare_eq_iff_eq] at hnode
          split_ifs at hnode with hnew
          · cases hnode
            exact ⟨by rw [hcontent, hnew.1], file.1, hfile⟩
          · exact h.byHash hash node hnode
  · exact h

theorem load_holds (hfiles : ∀ file ∈ files, P file) : (load files).Holds P := by
  have hfold : ∀ parent : ParentIndex Id, parent.Holds P → (files.foldl ParentIndex.loadNode parent).Holds P := by
    induction files with
    | nil => exact fun _ h => h
    | cons file files ih =>
        intro parent h
        have hfile := hfiles file List.mem_cons_self
        exact ih (fun other hother => hfiles other (List.mem_cons_of_mem _ hother)) _
          (h.loadNode hfile)
  apply hfold
  constructor <;> simp

theorem Holds.resumeEntry (h : parent.Holds P) (hfile : P file) :
    (parent.resumeEntry has file).Holds P := by
  unfold ParentIndex.resumeEntry
  split_ifs
  · refine ⟨h.byPath, ?_, ?_⟩
    · intro hash node hnode
      cases hcontent : file.2.contentHash with
      | none =>
          simp only [hcontent] at hnode
          exact h.byHash hash node hnode
      | some recorded =>
          simp only [hcontent, StringMap.getElem?_insert] at hnode
          split_ifs at hnode with hrecorded
          · cases hnode
            exact ⟨by rw [hcontent, hrecorded], file.1, hfile⟩
          · exact h.byHash hash node hnode
    · intro path node hnode
      change (parent.resumed.insert file.1 file.2)[path]? = some node at hnode
      rw [StringMap.getElem?_insert] at hnode
      split_ifs at hnode with hpath
      · cases hnode
        exact hpath ▸ hfile
      · exact h.resumed path node hnode
  · exact h

theorem Holds.resume (h : parent.Holds P) (hentries : ∀ entry ∈ entries, P entry) :
    (parent.resume has entries).Holds P := by
  unfold ParentIndex.resume
  induction entries generalizing parent with
  | nil => exact h
  | cons entry entries ih =>
      have hentry := hentries entry List.mem_cons_self
      exact ih (h.resumeEntry hentry) fun other hother => hentries other (List.mem_cons_of_mem _ hother)

end ParentIndex

section Archived

variable {ids : ContentIds Id} {parent : ParentIndex Id} {has : Id → Bool} {path real : String}
  {node : Node Id} {metadata : Metadata} {stub : StubMeta} {reading : Except String (List Bytes)}
  {archived : Archived Id}

theorem archiveFile_ok (h : archiveFile ids parent path node reading = .ok archived) :
    archived.path = path ∧
      ((∃ old : Node Id, (parent.resumed[path]? = some old ∨ parent.byPath[path]? = some old) ∧
          sameContent old node = true ∧ archived.outcome.recorded = false ∧
          archived.node = { node with content := old.content, contentHash := old.contentHash }) ∨
        ∃ chunks, reading = .ok chunks ∧ archived.outcome.recorded = true ∧
          archived.node = { node with
            size := (storeChunks ids chunks).total
            contentHash := some (storeChunks ids chunks).hash
            content := (storeChunks ids chunks).content }) := by
  unfold archiveFile at h
  split at h
  · next old hresumed =>
      cases h
      obtain ⟨hold, hsame⟩ := Option.filter_eq_some_iff.mp hresumed
      exact ⟨rfl, .inl ⟨old, .inl hold, hsame, rfl, rfl⟩⟩
  · split at h
    · next old hparent =>
        cases h
        obtain ⟨hold, hsame⟩ := Option.filter_eq_some_iff.mp hparent
        exact ⟨rfl, .inl ⟨old, .inr hold, hsame, rfl, rfl⟩⟩
    · cases reading with
      | error e => cases h
      | ok chunks =>
          cases h
          refine ⟨rfl, .inr ⟨chunks, rfl, ?_, rfl⟩⟩
          change (if parent.byPath.contains path then FileOutcome.changed else .new).recorded = true
          split_ifs <;> rfl

/-- A placeholder's chunks are those of a node with its hash and size, or have just been read, with
this hash and size. -/
theorem archiveOffloaded_ok
    (h : archiveOffloaded ids parent has path real metadata stub reading = .ok archived) :
    ∃ content : List Id,
      archived.path = withFileName path real ∧
      archived.node = { offloadedTimes (offloadedNode real metadata stub) stub
        (reusable parent has stub) with content := content } ∧
      ((∃ old, reusable parent has stub = some old ∧ content = old.content ∧
          archived.outcome = .offloadedReused) ∨
        ∃ chunks, reading = .ok chunks ∧ content = (storeChunks ids chunks).content ∧
          (storeChunks ids chunks).hash = stub.hash.map Char.toLower ∧
          (storeChunks ids chunks).total = stub.size ∧
          archived.outcome = .offloadedDownloaded) := by
  unfold archiveOffloaded at h
  split at h
  · next old hold =>
      cases h
      exact ⟨old.content, rfl, rfl, .inl ⟨old, hold, rfl, rfl⟩⟩
  · next hnone =>
      cases reading with
      | error e => cases h
      | ok chunks =>
          change (if (storeChunks ids chunks).hash ≠ stub.hash.map Char.toLower ∨
            (storeChunks ids chunks).total ≠ stub.size then _ else _) = _ at h
          split_ifs at h with hmatch
          cases h
          obtain ⟨hhash, htotal⟩ := not_or.mp hmatch
          refine ⟨(storeChunks ids chunks).content, rfl, rfl,
            .inr ⟨chunks, rfl, rfl, not_not.mp hhash, not_not.mp htotal, rfl⟩⟩

end Archived

namespace ArchiveWorld

variable {ids : ContentIds Id} {P : String × Node Id → Prop} {w w' : ArchiveWorld Id}
  {run : ArchiveRun Id} {archived : Except String (Archived Id)} {kept : Bool}

/-- Whatever the backups have saved, noted or looked up has the property. -/
structure Keeps (P : String × Node Id → Prop) (w : ArchiveWorld Id) : Prop where
  snapshots : ∀ files ∈ w.snapshots, ∀ file ∈ files, P file
  journal : ∀ file ∈ w.journal, P file
  parent : ∀ run ∈ w.run, run.parent.Holds P
  files : ∀ run ∈ w.run, ∀ file ∈ run.files, P file

theorem empty_keeps : Keeps P empty where
  snapshots _ h := nomatch h
  journal _ h := nomatch h
  parent _ h := nomatch h
  files _ h := nomatch h

theorem Keeps.mono {Q : String × Node Id → Prop} (h : w.Keeps P) (hPQ : ∀ file, P file → Q file) :
    w.Keeps Q where
  snapshots files hfiles file hfile := hPQ file (h.snapshots files hfiles file hfile)
  journal file hfile := hPQ file (h.journal file hfile)
  parent run hrun := (h.parent run hrun).mono hPQ
  files run hrun file hfile := hPQ file (h.files run hrun file hfile)

theorem finish_run (w : ArchiveWorld Id) (run : ArchiveRun Id) (archived : Except String (Archived Id))
    (kept : Bool) : ∃ files, (w.finish run archived kept).run = some { run with files } := by
  cases archived with
  | error e => exact ⟨run.files, rfl⟩
  | ok file => exact ⟨_, rfl⟩

theorem Keeps.finish (h : w.Keeps P) (hparent : run.parent.Holds P)
    (hfiles : ∀ file ∈ run.files, P file)
    (harchived : ∀ file, archived = .ok file → P (file.path, file.node)) :
    (w.finish run archived kept).Keeps P := by
  cases archived with
  | error e =>
      refine ⟨h.snapshots, h.journal, ?_, ?_⟩
      · rintro _ ⟨⟩
        exact hparent
      · rintro _ ⟨⟩
        exact hfiles
  | ok file =>
      have hfile := harchived file rfl
      have hsnoc : ∀ nodes : List (String × Node Id), (∀ other ∈ nodes, P other) →
          ∀ other ∈ nodes ++ [(file.path, file.node)], P other := by
        intro nodes hnodes other hother
        cases List.mem_append.mp hother with
        | inl hbefore => exact hnodes other hbefore
        | inr hlast =>
            cases List.mem_singleton.mp hlast
            exact hfile
      refine ⟨h.snapshots, ?_, ?_, ?_⟩
      · intro other hother
        unfold ArchiveWorld.finish at hother
        simp only at hother
        split_ifs at hother
        · exact hsnoc _ h.journal other hother
        · exact h.journal other hother
      · rintro _ ⟨⟩
        exact hparent
      · rintro _ ⟨⟩
        exact hsnoc _ hfiles

variable [DecidableEq Id]

theorem begin_ok {parent loaded entries : List (String × Node Id)} {has : Id → Bool}
    (h : w.step ids (.begin parent loaded entries has) = some w') :
    w.run = none ∧ (parent = [] ∨ parent ∈ w.snapshots) ∧ loaded.Sublist parent ∧
      entries.Sublist w.journal ∧
      w' = { w with run := some ⟨(ParentIndex.load loaded).resume has entries, [], []⟩ } := by
  change (match w.run with | some _ => none | none => _) = some w' at h
  split at h
  · cases h
  · next hrun =>
      split_ifs at h with hfrom
      cases h
      exact ⟨hrun, hfrom.1, List.isSublist_iff_sublist.mp hfrom.2.1,
        List.isSublist_iff_sublist.mp hfrom.2.2, rfl⟩

theorem saveSnapshot_ok {files : List (String × Node Id)} {removed : Bool}
    (h : w.step ids (.saveSnapshot files removed) = some w') :
    ∃ run, w.run = some run ∧ files.Perm run.files ∧
      w' = ⟨files :: w.snapshots, if removed then [] else w.journal, none⟩ := by
  obtain ⟨run, hrun, hsaved⟩ := Option.bind_eq_some_iff.mp h
  by_cases hall : run.statted = [] ∧ files.isPerm run.files = true
  · rw [if_pos hall] at hsaved
    cases hsaved
    exact ⟨run, hrun, List.isPerm_iff.mp hall.2, rfl⟩
  · rw [if_neg hall] at hsaved
    cases hsaved

theorem Keeps.step {a : ArchiveStep Id} (h : w.Keeps P) (hstep : w.step ids a = some w')
    (hfile : ∀ path reading kept run node file, a = .archive path reading kept →
      w.run = some run → run.statted.lookup path = some node →
      archiveFile ids run.parent path node reading = .ok file → P (file.path, file.node))
    (hoffloaded : ∀ path real metadata stub has reading kept run file,
      a = .archiveOffloaded path real metadata stub has reading kept → w.run = some run →
      FileMirror.archiveOffloaded ids run.parent has path real metadata stub reading = .ok file →
      P (file.path, file.node)) : w'.Keeps P := by
  cases a with
  | begin parent loaded entries has =>
      obtain ⟨-, hsnapshot, hloaded, hentries, rfl⟩ := begin_ok hstep
      have hparent : ∀ file ∈ loaded, P file := by
        intro file hfile
        have hmem := hloaded.mem hfile
        cases hsnapshot with
        | inl hnone =>
            rw [hnone] at hmem
            cases hmem
        | inr hsaved => exact h.snapshots parent hsaved file hmem
      have hjournal : ∀ entry ∈ entries, P entry := fun entry hentry =>
        h.journal entry (hentries.mem hentry)
      refine ⟨h.snapshots, h.journal, ?_, ?_⟩
      · rintro _ ⟨⟩
        exact (ParentIndex.load_holds hparent).resume hjournal
      · rintro _ ⟨⟩ file hfile
        cases hfile
  | stat path name metadata =>
      obtain ⟨run, hrun, rfl⟩ := Option.map_eq_some_iff.mp hstep
      refine ⟨h.snapshots, h.journal, ?_, ?_⟩
      · rintro _ ⟨⟩
        exact h.parent run hrun
      · rintro _ ⟨⟩
        exact h.files run hrun
  | archive path reading kept =>
      obtain ⟨run, hrun, hnode⟩ := Option.bind_eq_some_iff.mp hstep
      obtain ⟨node, hlookup, rfl⟩ := Option.map_eq_some_iff.mp hnode
      refine h.finish ?_ ?_ ?_
      · exact h.parent run hrun
      · exact h.files run hrun
      · exact fun file => hfile path reading kept run node file rfl hrun hlookup
  | archiveOffloaded path real metadata stub has reading kept =>
      obtain ⟨run, hrun, rfl⟩ := Option.map_eq_some_iff.mp hstep
      apply h.finish (h.parent run hrun) (h.files run hrun)
      exact fun file => hoffloaded path real metadata stub has reading kept run file rfl hrun
  | saveSnapshot files removed =>
      obtain ⟨run, hrun, hperm, rfl⟩ := saveSnapshot_ok hstep
      refine ⟨?_, ?_, nofun, nofun⟩
      · intro other hother file hmem
        cases List.mem_cons.mp hother with
        | inl hnew =>
            rw [hnew] at hmem
            exact h.files run hrun file (hperm.mem_iff.mp hmem)
        | inr hold => exact h.snapshots other hold file hmem
      · intro file hmem
        simp only at hmem
        split_ifs at hmem
        · cases hmem
        · exact h.journal file hmem
  | interrupt =>
      obtain ⟨run, hrun, rfl⟩ := Option.map_eq_some_iff.mp hstep
      exact ⟨h.snapshots, h.journal, nofun, nofun⟩

end ArchiveWorld

/-- The plaintexts that the node's chunks are the ids of make these bytes. -/
def Node.Restores (ids : ContentIds Id) (node : Node Id) (bytes : Bytes) : Prop :=
  ∃ chunks : List Bytes, node.content = chunks.map ids.blobId ∧ chunks.flatten = bytes

section Restores

variable {ids : ContentIds Id} {node old : Node Id} {bytes other : Bytes}

theorem Node.Restores.unique (hblob : Function.Injective ids.blobId)
    (h : node.Restores ids bytes) (h' : node.Restores ids other) : bytes = other := by
  obtain ⟨chunks, hcontent, rfl⟩ := h
  obtain ⟨others, hcontent', rfl⟩ := h'
  rw [List.map_injective_iff.mpr hblob (hcontent.symm.trans hcontent')]

theorem Node.Restores.congr (hcontent : node.content = old.content) :
    node.Restores ids bytes ↔ old.Restores ids bytes := by
  unfold Node.Restores
  rw [hcontent]

end Restores

end FileMirror
