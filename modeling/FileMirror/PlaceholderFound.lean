import FileMirror.EvictionSafe
import FileMirror.ScannedNames

set_option autoImplicit false

namespace FileMirror

namespace MirrorTree

/-- Where `placeholder::write` renames its file to: the directories of `stub_path` are there, and a
link at the end is not followed. -/
def stubTarget (m : MirrorTree) (path : String) : Option (List String) :=
  if (safeJoin (stubRel path)).isSome then
    let names := m.joined (stubRel path)
    (m.fs.resolve true FileSystem.maxSymlinks names.dropLast []).bind fun dir =>
      names.getLast?.map fun name => dir ++ [name]
  else none

/-- The rename of `placeholder::write`, from the tree in which it has made the directories. -/
structure Writes (before m : MirrorTree) (stub : StubMeta) (full : List String) (file : RawFile) :
    Prop where
  target : before.stubTarget stub.path = some full
  there : m.fs.root.descend full = some (.file file)
  text : file.bytes = stub.bytes
  root : m.root = before.root
  others : ∀ path, ¬ full <+: path → ¬ path <+: full →
    m.fs.root.descend path = before.fs.root.descend path

end MirrorTree

namespace Scanner

variable (s : Scanner) (m : MirrorTree) (stub : StubMeta) (path : String) (full : List String)

/-- The placeholder is read as it was written, and the pass sees it for its path. -/
structure FindsAgain (file : RawFile) : Prop where
  reads : readStub s.fromStr file.bytes = some stub
  reported : (full, .placeholder stub.path stub) ∈ s.found m
  listed : (s.scan m).placeholders[stub.path]? = some stub
  kept : localHash (s.scan m).entries stub.path = none →
    (dropStale (s.scan m))[stub.path]? = some stub

/-- The walk comes to the file, whose names are those of the path's placeholder. -/
def Sees : Prop :=
  path ≠ "" ∧ ∃ rel, full = m.root ++ rel ∧ canonicalRelative s.nfc rel = stubRel path ∧
    Open (s.files.skips m.root) m.root rel

/-- What the readable placeholders of the path say, in the order of the walk. -/
def sayings : List StubMeta :=
  ((m.walked s.files).filter fun file =>
    canonicalRelative s.nfc (m.relative file.1) = stubRel path).filterMap fun file =>
      readStub s.fromStr file.2.bytes

end Scanner

section Findings

variable {s : Scanner} {before m : MirrorTree} {stub : StubMeta} {path : String}
  {full : List String} {file : RawFile}

theorem Scanner.scan_placeholders (hpath : path ≠ "") :
    (s.scan m).placeholders[path]? = (s.sayings m path).getLast? := by
  have hsayings : ((((s.found m).filterMap fun file => file.2.placeholder?).filter fun entry =>
      entry.1 = path).map Prod.snd) = s.sayings m path := by
    unfold Scanner.found Scanner.sayings
    rw [List.filterMap_map, List.filter_filterMap, List.map_filterMap, List.filterMap_filter]
    refine List.filterMap_congr fun file _ => Option.ext fun stub => ?_
    simp only [Function.comp, Option.map_eq_some_iff, Option.filter_eq_some_iff,
      Found.some_placeholder, scanFile_placeholder, decide_eq_true_eq]
    constructor
    · rintro ⟨⟨original, said⟩, ⟨⟨hrel, -, hstub⟩, rfl⟩, rfl⟩
      exact (if_pos hrel).trans hstub
    · intro h
      by_cases hrel : canonicalRelative s.nfc (m.relative file.1) = stubRel path
      · rw [if_pos hrel] at h
        exact ⟨(path, stub), ⟨⟨hrel, hpath, h⟩, rfl⟩, rfl⟩
      · rw [if_neg hrel] at h
        cases h
  unfold Scanner.scan
  dsimp only
  rw [getElem?_foldl_insert, ← List.getLast?_map, hsayings]

theorem Scanner.reports_iff (hthere : m.fs.root.descend full = some (.file file))
    (hreads : readStub s.fromStr file.bytes = some stub) :
    (full, .placeholder path stub) ∈ s.found m ↔ s.Sees m path full := by
  constructor
  · intro h
    obtain ⟨rel, other, hfull, -, hopen, hfound⟩ := Scanner.mem_found.mp h
    obtain ⟨hrel, hpath, -⟩ := scanFile_placeholder.mp hfound.symm
    exact ⟨hpath, rel, hfull, hrel, hopen⟩
  · rintro ⟨hpath, rel, rfl, hrel, hopen⟩
    refine Scanner.mem_found.mpr ⟨rel, file, rfl, hthere, hopen, ?_⟩
    exact (scanFile_placeholder.mpr ⟨hrel, hpath, hreads⟩).symm

/-- A placeholder that is written is found again if and only if its text is short enough to be read,
the walk comes to it under the name of its path, and no later one of that name says otherwise. -/
theorem written_found_iff (s : Scanner) (before m : MirrorTree) (stub : StubMeta)
    (full : List String) (file : RawFile) (hwrites : before.Writes m stub full file)
    (hformat : stub.rfm = stubFormat) (hparse : s.fromStr stub.json = some stub) :
    s.FindsAgain m stub full file ↔ stub.textLen ≤ maxStubLen ∧ s.Sees m stub.path full ∧
      (s.sayings m stub.path).getLast? = some stub := by
  have hread : readStub s.fromStr file.bytes =
      if stub.textLen ≤ maxStubLen then some stub else none := by
    rw [hwrites.text, readStub_bytes hparse hformat]
  constructor
  · intro h
    have hfits : stub.textLen ≤ maxStubLen := by
      by_contra hlong
      have hreads := h.reads
      rw [hread, if_neg hlong] at hreads
      cases hreads
    have hsees := (Scanner.reports_iff hwrites.there h.reads).mp h.reported
    have hlisted := h.listed
    rw [Scanner.scan_placeholders hsees.1] at hlisted
    exact ⟨hfits, hsees, hlisted⟩
  · rintro ⟨hfits, hsees, hlast⟩
    rw [if_pos hfits] at hread
    have hlisted : (s.scan m).placeholders[stub.path]? = some stub := by
      rw [Scanner.scan_placeholders hsees.1, hlast]
    refine ⟨hread, (Scanner.reports_iff hwrites.there hread).mpr hsees, hlisted, fun hlocal => ?_⟩
    refine dropStale_eq_some.mpr ⟨hlisted, ?_⟩
    rintro ⟨entry, hentry, hpath⟩
    exact absurd hpath (localHash_eq_none.mp hlocal entry hentry)

namespace FoundExamples

def folder (children : List (String × FsNode RawFile)) : FsNode RawFile := .dir ⟨⟨0, 0⟩, []⟩ children

/-- The mirror after the placeholder of `keep` has been written, and before it when there is none. -/
def keepTree (file : Option RawFile) : MirrorTree where
  fs :=
    { info := ⟨⟨0, 0⟩, []⟩
      children := [("mirror", folder ((".mirror", folder [("tmp", folder [])]) ::
        (file.map fun file => ("keep.rfm", FsNode.file file)).toList))]
      distinct := by cases file <;> simp [FsNode.Distinct, FsNode.DistinctAll, folder] }
  named := by
    cases file <;> simp only [FileSystem.root, FsNode.Named, FsNode.NamedAll, folder, and_true,
      Option.map_some, Option.map_none, Option.toList_some, Option.toList_none] <;>
      unfold Proper <;> decide
  root := ["mirror"]
  info := ⟨⟨0, 0⟩, []⟩
  children := (".mirror", folder [("tmp", folder [])]) ::
    (file.map fun file => ("keep.rfm", FsNode.file file)).toList
  opens := rfl

def keepStub (path : String) : StubMeta := .new path 1 10 "data/k" 0 none

def keepFile : RawFile := ⟨⟨0, 0⟩, (keepStub "keep").bytes⟩

def scannerOf (stub : StubMeta) (rules : DirRules) : Scanner where
  files := ⟨rules, fun _ => none⟩
  nfc := id
  hash := fun _ => 0
  fromStr := fun text => if text = stub.json then some stub else none
  cache := ∅

theorem scannerOf_json (stub : StubMeta) (rules : DirRules) :
    (scannerOf stub rules).fromStr stub.json = some stub := by
  simp [scannerOf]

abbrev scanner (rules : DirRules) : Scanner := scannerOf (keepStub "keep") rules

/-- Everything is ignored but `keep`. -/
def onlyKeep : DirRules := fun dir =>
  if dir = ["mirror"] then
    some fun path _ => if path.getLast? = some "keep" then .whitelist else .ignore
  else none

theorem keepTree_writes : (keepTree none).Writes (keepTree (some keepFile)) (keepStub "keep")
    ["mirror", "keep.rfm"] keepFile where
  target := by decide +kernel
  there := rfl
  text := rfl
  root := rfl
  others := by
    intro path hbelow habove
    match path with
    | [] => exact absurd List.nil_prefix habove
    | first :: rest =>
        by_cases hfirst : first = "mirror"
        · subst hfirst
          match rest with
          | [] => exact absurd ⟨["keep.rfm"], rfl⟩ habove
          | second :: rest =>
              have hsecond : (second == "keep.rfm") = false := by
                refine beq_false_of_ne ?_
                rintro rfl
                exact hbelow ⟨rest, rfl⟩
              simp [keepTree, folder, FileSystem.root, FsNode.descend, FsNode.child,
                List.lookup_cons, hsecond]
        · simp [keepTree, FileSystem.root, FsNode.descend, FsNode.child, List.lookup_cons,
            beq_false_of_ne hfirst]

theorem keepTree_walked (rules : DirRules) (file : RawFile)
    (hmirror : (scanner rules).files.skips ["mirror"] ["mirror", ".mirror"] true = true)
    (hskips : (scanner rules).files.skips ["mirror"] ["mirror", "keep.rfm"] false = false) :
    (keepTree (some file)).walked (scanner rules).files = [(["mirror", "keep.rfm"], file)] := by
  simp [MirrorTree.walked, keepTree, folder, filesIn, filesOf, FsNode.isDir, hmirror, hskips]

theorem relative_keep : canonicalRelative id ["keep.rfm"] = stubRel "keep" := by decide +kernel

theorem sees_keep (rules : DirRules) (file : RawFile)
    (hskips : (scanner rules).files.skips ["mirror"] ["mirror", "keep.rfm"] false = false) :
    (scanner rules).Sees (keepTree (some file)) "keep" ["mirror", "keep.rfm"] :=
  ⟨by decide, ["keep.rfm"], rfl, relative_keep, open_cons.mpr ⟨hskips, open_nil⟩⟩

theorem sayings_keep (rules : DirRules)
    (hmirror : (scanner rules).files.skips ["mirror"] ["mirror", ".mirror"] true = true)
    (hskips : (scanner rules).files.skips ["mirror"] ["mirror", "keep.rfm"] false = false) :
    (scanner rules).sayings (keepTree (some keepFile)) "keep" = [keepStub "keep"] := by
  have hname : [(["mirror", "keep.rfm"], keepFile)].filter (fun file =>
      canonicalRelative (scanner rules).nfc ((keepTree (some keepFile)).relative file.1) =
        stubRel "keep") = [(["mirror", "keep.rfm"], keepFile)] :=
    List.filter_eq_self.mpr (List.forall_mem_singleton.mpr (decide_eq_true relative_keep))
  have hread : readStub (scanner rules).fromStr (keepStub "keep").bytes =
      some (keepStub "keep") := by
    rw [readStub_bytes (scannerOf_json (keepStub "keep") rules) rfl, if_pos (by decide +kernel)]
  rw [Scanner.sayings, keepTree_walked rules keepFile hmirror hskips, hname]
  simp only [List.filterMap_cons, List.filterMap_nil, keepFile, hread]

end FoundExamples

open FoundExamples in
theorem written_found_keep : (scanner fun _ => none).FindsAgain (keepTree (some keepFile))
    (keepStub "keep") ["mirror", "keep.rfm"] keepFile := by
  have hsayings := sayings_keep (fun _ => none) (by decide +kernel) (by decide +kernel)
  refine (written_found_iff _ _ _ _ _ _ keepTree_writes rfl (scannerOf_json (keepStub "keep") _)).mpr ⟨?_, ?_, ?_⟩
  · decide +kernel
  · exact sees_keep _ _ (by decide +kernel)
  · exact congrArg List.getLast? hsayings

open FoundExamples in
/-- A placeholder that is ignored, where its file is not, is lost, and so is one with a long path. -/
theorem written_found_fails : (keepTree none).Writes (keepTree (some keepFile)) (keepStub "keep")
      ["mirror", "keep.rfm"] keepFile ∧
    ¬ (scanner onlyKeep).FindsAgain (keepTree (some keepFile)) (keepStub "keep")
      ["mirror", "keep.rfm"] keepFile ∧
    (scanner onlyKeep).files.skips ["mirror"] ["mirror", "keep"] false = false ∧
    readStub (fun _ => some (keepStub longPath)) (keepStub longPath).bytes = none := by
  refine ⟨keepTree_writes, fun h => ?_, by decide +kernel, ?_⟩
  · obtain ⟨-, rel, hfull, -, hopen⟩ :=
      (Scanner.reports_iff keepTree_writes.there h.reads).mp h.reported
    obtain rfl : ["keep.rfm"] = rel := (List.cons.inj hfull).2
    exact absurd (open_cons.mp hopen).1 (by decide +kernel)
  · rw [readStub_bytes rfl rfl, if_neg]
    exact not_le.mpr (long_text rfl rfl)

end Findings

end FileMirror
