import FileMirror.Engine

set_option autoImplicit false

namespace FileMirror

structure ScanResult where
  entries : List LocalEntry
  placeholders : StringMap StubMeta
  skipped : List String

/-- `rel.strip_suffix(placeholder::SUFFIX)`. -/
def stripStubSuffix (rel : String) : Option String :=
  if stubSuffix <:+ rel.toList then
    some (String.ofList (rel.toList.take (rel.toList.length - stubSuffix.length)))
  else none

def alwaysExclude : List String := [".mirror", ".DS_Store", "Thumbs.db", "desktop.ini"]

/-- Left out of the walk: a reserved name at any depth, or a match of the user's ignore file. -/
def excluded (ignored : String → Bool) (rel : String) : Bool :=
  (rel.toList.splitOn '/').any (fun part => String.ofList part ∈ alwaysExclude) || ignored rel

inductive Found where
  | entry (entry : LocalEntry)
  | placeholder (original : String) (stub : StubMeta)
  | skipped (rel : String)
  | deferred
  deriving DecidableEq

def scanFile (cache : Baseline) (rel : String) (file : DiskFile) : Found :=
  match stripStubSuffix rel with
  | some original =>
      match file.stub with
      | some stub => if original ≠ "" then .placeholder original stub else .skipped rel
      | none => .skipped rel
  | none =>
      match cache.cached rel file.stat.size file.stat.mtimeNs with
      | some hash => .entry ⟨rel, file.stat.size, file.stat.mtimeNs, hash⟩
      | none =>
          match file.hashStable with
          | some (size, mtimeNs, hash) => .entry ⟨rel, size, mtimeNs, hash⟩
          | none => .deferred

def walk (ignored : String → Bool) (tree : LocalTree) : List (String × DiskFile) :=
  tree.toList.filter fun file => !excluded ignored file.1

def Found.entry? : Found → Option LocalEntry
  | .entry e => some e
  | _ => none

def Found.placeholder? : Found → Option (String × StubMeta)
  | .placeholder original stub => some (original, stub)
  | _ => none

def Found.skipped? : Found → Option String
  | .skipped rel => some rel
  | _ => none

def scanAllWith (ignored : String → Bool) (cache : Baseline) (tree : LocalTree) : ScanResult :=
  let found := (walk ignored tree).map fun file => scanFile cache file.1 file.2
  { entries := (found.filterMap Found.entry?).insertionSort fun a b => a.path ≤ b.path
    placeholders := .ofList (found.filterMap Found.placeholder?) compare
    skipped := (found.filterMap Found.skipped?).insertionSort (· ≤ ·) }

/-- The placeholders that `plan_pass` hands to `reconcile_with`: a real file wins over its own. -/
def dropStale (scan : ScanResult) : StringMap StubMeta :=
  scan.placeholders.filter fun path stub =>
    !(scan.entries.any (·.path = path) && stub.path = path)

/-- The placeholder standing in for `path`, as the walk finds it in the tree. -/
def stubFor (ignored : String → Bool) (tree : LocalTree) (path : String) : Option StubMeta :=
  if path = "" ∨ excluded ignored (stubRel path) then none
  else tree[stubRel path]?.bind DiskFile.stub

theorem stripStubSuffix_eq_some {rel original : String} :
    stripStubSuffix rel = some original ↔ rel = stubRel original := by
  simp only [stripStubSuffix, stubRel]
  constructor
  · intro h
    split_ifs at h with hs
    obtain ⟨init, hinit⟩ := hs
    have htake : rel.toList.take (rel.toList.length - stubSuffix.length) = init := by
      rw [← hinit]
      simp
    rw [Option.some.injEq, htake] at h
    rw [← h, String.toList_ofList, hinit, String.ofList_toList]
  · rintro rfl
    simp

theorem stubRel_injective : Function.Injective stubRel := by
  intro a b h
  have ha : stripStubSuffix (stubRel a) = some a := stripStubSuffix_eq_some.mpr rfl
  rw [h, stripStubSuffix_eq_some.mpr rfl, Option.some.injEq] at ha
  exact ha.symm

section Scan

variable {ignored : String → Bool} {cache : Baseline} {tree : LocalTree} {path : String}

theorem mem_walk {file : String × DiskFile} :
    file ∈ walk ignored tree ↔ tree[file.1]? = some file.2 ∧ excluded ignored file.1 = false := by
  obtain ⟨rel, file⟩ := file
  simp [walk, Std.ExtTreeMap.mem_toList_iff_getElem?_eq_some]

theorem scanFile_entry {rel : String} {file : DiskFile} {entry : LocalEntry}
    (h : scanFile cache rel file = .entry entry) : entry.path = rel := by
  simp only [scanFile] at h
  split at h
  · split at h
    · split_ifs at h
    · cases h
  · split at h
    · cases h
      rfl
    · split at h
      · cases h
        rfl
      · cases h

theorem scanFile_placeholder {rel original : String} {file : DiskFile} {stub : StubMeta} :
    scanFile cache rel file = .placeholder original stub ↔
      rel = stubRel original ∧ original ≠ "" ∧ file.stub = some stub := by
  simp only [scanFile, ← stripStubSuffix_eq_some]
  cases stripStubSuffix rel with
  | none =>
      simp only [reduceCtorEq, false_and, iff_false]
      split
      · simp
      · split <;> simp
  | some o =>
      cases hstub : file.stub with
      | none => simp
      | some s =>
          simp only [Option.some.injEq]
          split_ifs with ho
          · rw [Found.placeholder.injEq]
            exact ⟨fun h => ⟨h.1, h.1 ▸ ho, h.2⟩, fun h => ⟨h.1, h.2.2⟩⟩
          · simp only [false_iff, not_and]
            rintro rfl hne
            exact absurd hne ho

theorem Found.some_entry {found : Found} {entry : LocalEntry} :
    found.entry? = some entry ↔ found = .entry entry := by
  cases found <;> simp [Found.entry?]

theorem Found.some_placeholder {found : Found} {a : String × StubMeta} :
    found.placeholder? = some a ↔ found = .placeholder a.1 a.2 := by
  cases found <;> simp [Found.placeholder?, Prod.ext_iff]

theorem mem_scan_entries {entry : LocalEntry} :
    entry ∈ (scanAllWith ignored cache tree).entries ↔
      ∃ file ∈ walk ignored tree, scanFile cache file.1 file.2 = .entry entry := by
  simp [scanAllWith, List.mem_insertionSort, Found.some_entry]

theorem scan_entries_path {entry : LocalEntry}
    (h : entry ∈ (scanAllWith ignored cache tree).entries) :
    ∃ file, tree[entry.path]? = some file ∧ scanFile cache entry.path file = .entry entry := by
  obtain ⟨⟨rel, file⟩, hwalk, hentry⟩ := mem_scan_entries.mp h
  obtain rfl := scanFile_entry hentry
  exact ⟨file, (mem_walk.mp hwalk).1, hentry⟩

theorem scan_placeholders : (scanAllWith ignored cache tree).placeholders[path]? =
    stubFor ignored tree path := by
  have hmem : ∀ (p : String) (stub : StubMeta),
      (p, stub) ∈ ((walk ignored tree).map fun file => scanFile cache file.1 file.2).filterMap
        Found.placeholder? ↔ stubFor ignored tree p = some stub := by
    intro p stub
    simp only [List.mem_filterMap, List.mem_map, Found.some_placeholder, stubFor]
    constructor
    · rintro ⟨found, ⟨⟨rel, file⟩, hwalk, rfl⟩, hplaceholder⟩
      obtain ⟨rfl, hne, hstub⟩ := scanFile_placeholder.mp hplaceholder
      obtain ⟨hfile, hexcluded⟩ := mem_walk.mp hwalk
      rw [if_neg (by simp [hne, hexcluded]), hfile, Option.bind_some, hstub]
    · intro h
      split_ifs at h with hcond
      simp only [not_or, Bool.not_eq_true] at hcond
      obtain ⟨file, hfile, hstub⟩ := Option.bind_eq_some_iff.mp h
      exact ⟨_, ⟨(stubRel p, file), mem_walk.mpr ⟨hfile, hcond.2⟩, rfl⟩,
        scanFile_placeholder.mpr ⟨rfl, hcond.1, hstub⟩⟩
  have hdistinct : (((walk ignored tree).map fun file => scanFile cache file.1 file.2).filterMap
      Found.placeholder?).Pairwise fun a b => a.1 ≠ b.1 := by
    rw [List.pairwise_filterMap, List.pairwise_map]
    refine (StringMap.pairwise_toList.sublist List.filter_sublist).imp ?_
    intro a b hab x hx y hy heq
    rw [Found.some_placeholder, scanFile_placeholder] at hx hy
    exact hab (by rw [hx.1, hy.1, heq])
  refine Option.ext fun stub => ?_
  rw [← hmem]
  exact StringMap.getElem?_ofList hdistinct

theorem dropStale_eq_some {scan : ScanResult} {stub : StubMeta} :
    (dropStale scan)[path]? = some stub ↔ scan.placeholders[path]? = some stub ∧
      ((∃ e ∈ scan.entries, e.path = path) → stub.path ≠ path) := by
  simp only [dropStale, Std.ExtTreeMap.getElem?_filter', Option.filter_eq_some_iff]
  by_cases hpath : stub.path = path <;> simp [hpath]

end Scan

end FileMirror
