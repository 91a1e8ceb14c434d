import FileMirror.ArchivedContent
import FileMirror.PlaceholderText

set_option autoImplicit false

namespace FileMirror

structure RawFile where
  stat : FileStat
  bytes : List UInt8
  deriving DecidableEq

def maxMtimeNs : ℤ := i64Max

/-- `file_stat`: a time before 1970 is an error. -/
def RawFile.fileStat (path : List String) (file : RawFile) : Except String FileStat :=
  if file.stat.mtimeNs < 0 then .error s!"scan error: mtime precedes unix epoch: {pathText path}"
  else .ok ⟨file.stat.size, min file.stat.mtimeNs maxMtimeNs⟩

/-- What the passes see of a file that stays as it is. -/
def RawFile.disk (hash : List UInt8 → ContentHash) (fromStr : String → Option StubMeta)
    (file : RawFile) : DiskFile :=
  ⟨⟨file.stat.size, min file.stat.mtimeNs maxMtimeNs⟩, hash file.bytes, true,
    readStub fromStr file.bytes⟩

structure MirrorTree where
  fs : FileSystem RawFile
  named : fs.root.Named
  root : List String
  info : RawFile
  children : List (String × FsNode RawFile)
  opens : fs.root.descend root = some (.dir info children)

abbrev DirRules := List String → Option (List String → Bool → Match)

/-- The configured ignore files, and those of the name `.ignore`. -/
structure IgnoreFiles where
  custom : DirRules
  standard : DirRules

def verdict (rules : DirRules) (root path : List String) (isDir : Bool) :
    List (List String) → Match
  | [] => .none
  | dir :: above =>
      match (rules dir).elim .none fun rules => rules path isDir with
      | .none => if dir = root then .none else verdict rules root path isDir above
      | decided => decided

def Match.ignores : Match → Bool
  | .ignore => true
  | _ => false

namespace IgnoreFiles

def verdictOf (rules : DirRules) (root path : List String) (isDir : Bool) : Match :=
  verdict rules root path isDir path.inits.reverse.tail

/-- The configured files go before those that a walk reads by default. -/
def ignored (files : IgnoreFiles) (root path : List String) (isDir : Bool) : Bool :=
  match verdictOf files.custom root path isDir with
  | .ignore => true
  | .whitelist => false
  | .none => (verdictOf files.standard root path isDir).ignores

/-- `filter_entry` and the ignore files -/
def skips (files : IgnoreFiles) (root path : List String) (isDir : Bool) : Bool :=
  path.getLast?.any (fun name => name ∈ alwaysExclude) || files.ignored root path isDir

end IgnoreFiles

section Files

variable {μ : Type} (skip : List String → Bool → Bool)

mutual

/-- The regular files at or below a node, in the order of the walk; what is skipped is not gone
into, and links are not followed. -/
def filesOf (path : List String) : FsNode μ → List (List String × μ)
  | .file info => [(path, info)]
  | .symlink _ _ => []
  | .special => []
  | .dir _ children => filesIn path children

def filesIn (path : List String) : List (String × FsNode μ) → List (List String × μ)
  | [] => []
  | (name, node) :: rest =>
      (if skip (path ++ [name]) node.isDir then [] else filesOf (path ++ [name]) node) ++
        filesIn path rest

end

end Files

namespace MirrorTree

variable (m : MirrorTree) (files : IgnoreFiles)

/-- The files that `WalkBuilder` gives the scan. -/
def walked : List (List String × RawFile) := filesIn (files.skips m.root) m.root m.children

def filter : MirrorFilter := ⟨m.root, files.custom⟩

/-- The files that the backup's walk of the root comes to with no other filter. -/
def backedUp : List (List String × RawFile) :=
  filesIn (m.filter files).excluded m.root m.children

end MirrorTree

def canonicalRelative (nfc : String → String) (rel : List String) : String :=
  String.ofList (slashed (rel.map fun name => (nfc name).toList))

structure Scanner where
  files : IgnoreFiles
  nfc : String → String
  hash : List UInt8 → ContentHash
  fromStr : String → Option StubMeta
  cache : Baseline

namespace Scanner

/-- What the scan makes of each file that it is given. -/
def found (s : Scanner) (m : MirrorTree) : List (List String × Found) :=
  (m.walked s.files).map fun file =>
    (file.1, scanFile s.cache (canonicalRelative s.nfc (file.1.drop m.root.length))
      (file.2.disk s.hash s.fromStr))

/-- A later placeholder of the same name replaces an earlier one. -/
def scan (s : Scanner) (m : MirrorTree) : ScanResult where
  entries := ((s.found m).filterMap fun file => Found.entry? file.2).insertionSort fun a b =>
    a.path ≤ b.path
  placeholders := ((s.found m).filterMap fun file => file.2.placeholder?).foldl
    (fun placeholders file => placeholders.insert file.1 file.2) ∅
  skipped := ((s.found m).filterMap fun file => file.2.skipped?).insertionSort (· ≤ ·)

/-- The name is not one of a placeholder, so `file_stat` is called. -/
def Stats (s : Scanner) (m : MirrorTree) (path : List String) : Prop :=
  stripStubSuffix (canonicalRelative s.nfc (path.drop m.root.length)) = none

instance (s : Scanner) (m : MirrorTree) (path : List String) : Decidable (s.Stats m path) :=
  inferInstanceAs (Decidable (_ = _))

def failsAt (s : Scanner) (m : MirrorTree) (file : List String × RawFile) : Option String :=
  if s.Stats m file.1 then
    match file.2.fileStat file.1 with
    | .error e => some e
    | .ok _ => none
  else none

/-- `scan_all_with`: the first file whose time cannot be told ends it. -/
def scanAllWith (s : Scanner) (m : MirrorTree) : Except String ScanResult :=
  match (m.walked s.files).findSome? (s.failsAt m) with
  | some e => .error e
  | none => .ok (s.scan m)

/-- The scan succeeds, and the file is reported, or listed as a placeholder or as skipped. -/
def Lists (s : Scanner) (m : MirrorTree) (path : List String) : Prop :=
  s.scanAllWith m = .ok (s.scan m) ∧ ∃ found, (path, found) ∈ s.found m ∧ found ≠ .deferred

end Scanner

section Membership

variable {μ : Type} {skip : List String → Bool → Bool} {path rel : List String} {name : String}
  {file : List String × μ}

/-- Nothing on the way from `path` to `rel` beneath it is skipped. -/
def Open (skip : List String → Bool → Bool) (path rel : List String) : Prop :=
  ∀ q r, rel = q ++ r → q ≠ [] → skip (path ++ q) (r ≠ []) = false

theorem open_nil : Open skip path [] := by
  intro q r h hq
  exact absurd (List.append_eq_nil_iff.mp h.symm).1 hq

theorem open_cons : Open skip path (name :: rel) ↔
    skip (path ++ [name]) (rel ≠ []) = false ∧ Open skip (path ++ [name]) rel := by
  have happend : ∀ q : List String, (path ++ [name]) ++ q = path ++ name :: q := by simp
  constructor
  · intro h
    refine ⟨h [name] rel rfl (List.cons_ne_nil _ _), fun q r hqr _ => ?_⟩
    rw [happend]
    exact h (name :: q) r (by rw [hqr]; rfl) (List.cons_ne_nil _ _)
  · rintro ⟨hfirst, hrest⟩ q r hqr hq
    cases q with
    | nil => exact absurd rfl hq
    | cons other q =>
        obtain ⟨rfl, rfl⟩ := List.cons.inj hqr
        cases q with
        | nil => exact hfirst
        | cons next q =>
            have hlower := hrest (next :: q) r rfl (List.cons_ne_nil _ _)
            rwa [happend] at hlower

/-- The file is found at `rel` beneath the node. -/
def Reached (skip : List String → Bool → Bool) (path : List String) (node : FsNode μ)
    (file : List String × μ) : Prop :=
  ∃ rel, node.descend rel = some (.file file.2) ∧ file.1 = path ++ rel ∧ Open skip path rel

theorem reached_dir {info : μ} {children : List (String × FsNode μ)}
    (hnames : (children.map Prod.fst).Nodup) :
    Reached skip path (.dir info children) file ↔ ∃ entry ∈ children,
      skip (path ++ [entry.1]) entry.2.isDir = false ∧
        Reached skip (path ++ [entry.1]) entry.2 file := by
  have happend : ∀ (name : String) (q : List String), (path ++ [name]) ++ q = path ++ name :: q := by
    simp
  constructor
  · rintro ⟨rel, hdescend, hfile, hopen⟩
    cases rel with
    | nil => cases hdescend
    | cons name rel =>
        obtain ⟨child, hchild, hrest⟩ := Option.bind_eq_some_iff.mp hdescend
        obtain ⟨hfirst, hbeneath⟩ := open_cons.mp hopen
        rw [← Walk.isDir_of_descend hrest] at hfirst
        refine ⟨(name, child), (lookup_iff_mem hnames).mp hchild, hfirst, rel, hrest, ?_, hbeneath⟩
        rw [happend]
        exact hfile
  · rintro ⟨⟨name, child⟩, hmem, hfirst, rel, hrest, hfile, hbeneath⟩
    rw [Walk.isDir_of_descend hrest] at hfirst
    have hchild : children.lookup name = some child := (lookup_iff_mem hnames).mpr hmem
    refine ⟨name :: rel, Option.bind_eq_some_iff.mpr ⟨child, hchild, hrest⟩, ?_,
      open_cons.mpr ⟨hfirst, hbeneath⟩⟩
    rw [← happend]
    exact hfile

mutual

theorem mem_filesOf (path : List String) : ∀ node : FsNode μ, node.Distinct →
    (file ∈ filesOf skip path node ↔ Reached skip path node file)
  | .file info, _ => by
      rw [filesOf, List.mem_singleton]
      constructor
      · rintro rfl
        exact ⟨[], rfl, (List.append_nil _).symm, open_nil⟩
      · rintro ⟨rel, hdescend, hfile, _⟩
        cases rel with
        | nil =>
            cases hdescend
            rw [List.append_nil] at hfile
            exact Prod.ext hfile rfl
        | cons name rest => cases hdescend
  | .symlink info target, _ => by
      refine iff_of_false List.not_mem_nil ?_
      rintro ⟨rel, hdescend, _⟩
      cases rel with
      | nil => cases hdescend
      | cons name rest => cases hdescend
  | .special, _ => by
      refine iff_of_false List.not_mem_nil ?_
      rintro ⟨rel, hdescend, _⟩
      cases rel with
      | nil => cases hdescend
      | cons name rest => cases hdescend
  | .dir info children, hdistinct => by
      rw [reached_dir hdistinct.1, filesOf, mem_filesIn path children hdistinct.2]

theorem mem_filesIn (path : List String) : ∀ children : List (String × FsNode μ),
    FsNode.DistinctAll children → (file ∈ filesIn skip path children ↔ ∃ entry ∈ children,
      skip (path ++ [entry.1]) entry.2.isDir = false ∧
        Reached skip (path ++ [entry.1]) entry.2 file)
  | [], _ => by simp [filesIn]
  | (name, node) :: rest, hdistinct => by
      rw [filesIn, List.mem_append, mem_filesIn path rest hdistinct.2, List.exists_mem_cons_iff]
      refine or_congr_left ?_
      cases hskip : skip (path ++ [name]) node.isDir with
      | true => simp
      | false =>
          rw [if_neg Bool.false_ne_true, mem_filesOf (path ++ [name]) node hdistinct.1]
          simp

end

end Membership

section Rules

variable {files : IgnoreFiles} {root path : List String} {isDir : Bool} {m : MirrorTree}

theorem MirrorTree.distinct (m : MirrorTree) : (FsNode.dir m.info m.children).Distinct :=
  m.fs.distinct.descend m.opens

theorem MirrorTree.mem_files {skip : List String → Bool → Bool} {file : List String × RawFile} :
    file ∈ filesIn skip m.root m.children ↔ Reached skip m.root (.dir m.info m.children) file := by
  rw [mem_filesIn m.root m.children m.distinct.2, reached_dir m.distinct.1]

end Rules

section Scans

variable {s : Scanner} {m : MirrorTree} {path : List String} {found : Found}

theorem getElem?_foldl_insert {β : Type} (l : List (String × β)) (key : String) :
    (l.foldl (fun (m : StringMap β) entry => m.insert entry.1 entry.2) ∅)[key]? =
      (l.filter fun entry => entry.1 = key).getLast?.map Prod.snd := by
  induction l using List.reverseRecOn with
  | nil => exact Std.ExtTreeMap.getElem?_empty
  | append_singleton l entry ih =>
      rw [List.foldl_concat, StringMap.getElem?_insert, ih, List.filter_append]
      by_cases hkey : entry.1 = key
      · have hlast : [entry].filter (fun entry => entry.1 = key) = [entry] :=
          List.filter_eq_self.mpr (List.forall_mem_singleton.mpr (decide_eq_true hkey))
        rw [if_pos hkey, hlast, List.getLast?_concat]
        rfl
      · have hlast : [entry].filter (fun entry => entry.1 = key) = [] :=
          List.filter_eq_nil_iff.mpr (List.forall_mem_singleton.mpr (by
            rw [decide_eq_true_eq]
            exact hkey))
        rw [if_neg hkey, hlast, List.append_nil]

theorem Scanner.mem_scan (h : (path, found) ∈ s.found m) :
    (∀ entry, found = .entry entry → entry ∈ (s.scan m).entries) ∧
      (∀ original stub, found = .placeholder original stub →
        original ∈ (s.scan m).placeholders) ∧
      ∀ rel, found = .skipped rel → rel ∈ (s.scan m).skipped := by
  refine ⟨?_, ?_, ?_⟩
  · rintro entry rfl
    exact (List.mem_insertionSort _).mpr (List.mem_filterMap.mpr ⟨_, h, rfl⟩)
  · rintro original stub rfl
    have hmem : (original, stub) ∈ (s.found m).filterMap fun file => file.2.placeholder? :=
      List.mem_filterMap.mpr ⟨_, h, rfl⟩
    have hkept : (original, stub) ∈ ((s.found m).filterMap fun file =>
        file.2.placeholder?).filter fun entry => entry.1 = original :=
      List.mem_filter.mpr ⟨hmem, decide_eq_true rfl⟩
    rw [Std.ExtTreeMap.mem_iff_isSome_getElem?]
    unfold Scanner.scan
    dsimp only
    rw [getElem?_foldl_insert, Option.isSome_map, List.getLast?_isSome]
    exact List.ne_nil_of_mem hkept
  · rintro rel rfl
    exact (List.mem_insertionSort _).mpr (List.mem_filterMap.mpr ⟨_, h, rfl⟩)

theorem MirrorTree.mem_backedUp {files : IgnoreFiles} : (∃ file, (path, file) ∈ m.backedUp files) ↔
    ∃ node, Walk.entry ⟨(m.filter files).excluded, false, fun _ => false, fun _ => false⟩ m.root
      (.dir m.info m.children) = some node ∧ .read path ∈ node.contents := by
  rw [Walk.mem_entry m.root _ m.distinct]
  unfold MirrorTree.backedUp
  simp only [MirrorTree.mem_files]
  have hplain (name : String) (info : RawFile) :
      Walk.stubOf ⟨(m.filter files).excluded, false, fun _ => false, fun _ => false⟩ name
        (.file info) = none := rfl
  constructor
  · rintro ⟨file, rel, hdescend, hpath, hopen⟩
    exact ⟨rel, file, hdescend, hpath, hopen, fun _ _ _ => rfl, fun _ name _ => hplain name file⟩
  · rintro ⟨rel, file, hdescend, hpath, htakes⟩
    exact ⟨file, rel, hdescend, hpath, htakes.passes⟩

namespace WalkExamples

def file (bytes : List UInt8) : FsNode RawFile := .file ⟨⟨bytes.length, 0⟩, bytes⟩

end WalkExamples

end Scans

end FileMirror
