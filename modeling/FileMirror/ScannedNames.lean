import FileMirror.MirrorWalk
import FileMirror.StateArchived

set_option autoImplicit false

namespace FileMirror

namespace MirrorTree

variable (m : MirrorTree)

/-- `root.join(path)` -/
def joined (path : String) : List String :=
  if path.toList.head? = some '/' then FileSystem.components path
  else m.root ++ FileSystem.components path

/-- The entry of a directory that the joined path names: links on the way are followed, and one at the
end is not. -/
def lands (path : String) : Option (List String) :=
  m.fs.resolve false FileSystem.maxSymlinks (m.joined path) []

def relative (full : List String) : List String := full.drop m.root.length

end MirrorTree

/-- Entries have their own paths, and these lead back to the files. -/
structure Scanner.Identifies (s : Scanner) (m : MirrorTree) : Prop where
  distinct : ((s.scan m).entries.map LocalEntry.path).Nodup
  reopens : ∀ full entry, (full, .entry entry) ∈ s.found m → m.lands entry.path = some full

/-- The names are normalized, or a link that has the normalized name leads back to the file. -/
def Scanner.Spelled (s : Scanner) (m : MirrorTree) (full : List String) : Prop :=
  (∀ name ∈ m.relative full, s.nfc name = name) ∨
    (∃ q info target, q <+: (m.relative full).map s.nfc ∧
      m.fs.root.descend (m.root ++ q) = some (.symlink info target)) ∧
    m.lands (canonicalRelative s.nfc (m.relative full)) = some full

section Paths

variable {names : List String} {nfc : String → String} {rel : List String}

theorem components_slashed (h : ∀ name ∈ names, Proper name) :
    FileSystem.components (String.ofList (slashed (names.map String.toList))) = names := by
  cases names with
  | nil => decide
  | cons first rest =>
      have hsplit : (slashed ((first :: rest).map String.toList)).splitOn '/' =
          (first :: rest).map String.toList := by
        refine List.splitOn_intercalate _ (fun part hpart => ?_) (List.cons_ne_nil _ _)
        obtain ⟨name, hname, rfl⟩ := List.mem_map.mp hpart
        exact (h name hname).2.2.2
      have hsame : ((first :: rest).map String.toList).map String.ofList = first :: rest := by
        simp
      unfold FileSystem.components
      rw [String.toList_ofList, hsplit, hsame, List.filter_eq_self]
      exact fun name hname => decide_eq_true (h name hname).1

theorem head_slashed (h : ∀ name ∈ names, Proper name) :
    (slashed (names.map String.toList)).head? ≠ some '/' := by
  cases names with
  | nil => nofun
  | cons first rest =>
      obtain ⟨hne, -, -, hslash⟩ := h first List.mem_cons_self
      cases hchars : first.toList with
      | nil => exact absurd (String.toList_eq_nil_iff.mp hchars) hne
      | cons c chars =>
          have hc : c ≠ '/' := by
            rintro rfl
            exact hslash (hchars ▸ List.mem_cons_self)
          rw [List.map_cons, hchars]
          cases rest with
          | nil => simpa [slashed] using hc
          | cons next rest => simpa [slashed] using hc

end Paths

namespace FileSystem

variable {μ : Type} {fs : FileSystem μ} {rel place target : List String} {links : ℕ}

theorem follow_unlinked {again : List String → List String → Option (List String)}
    (hrel : Normal rel) (hlinks : ∀ q, q <+: rel → ∀ info link,
      fs.root.descend (place ++ q) ≠ some (.symlink info link))
    (h : fs.follow false again rel place = some target) : target = place ++ rel := by
  induction rel generalizing place with
  | nil =>
      cases h
      exact (List.append_nil _).symm
  | cons name rest ih =>
      obtain ⟨⟨hdot, hdots⟩, hrest⟩ := List.forall_mem_cons.mp hrel
      have happend : place ++ name :: rest = (place ++ [name]) ++ rest := by simp
      rw [follow, if_neg hdot, if_neg hdots] at h
      cases hnode : fs.root.descend (place ++ [name]) with
      | none =>
          rw [hnode] at h
          cases h
      | some node =>
          rw [hnode] at h
          cases node with
          | dir info children =>
              rw [happend]
              refine ih hrest (fun q hq info link => ?_) h
              rw [List.append_assoc, List.singleton_append]
              exact hlinks (name :: q) (List.cons_prefix_cons.mpr ⟨rfl, hq⟩) info link
          | symlink info link =>
              exact absurd hnode (hlinks [name] (List.cons_prefix_cons.mpr ⟨rfl, List.nil_prefix⟩)
                info link)
          | file info =>
              dsimp only at h
              split_ifs at h with hlast
              rw [hlast]
              exact (Option.some_inj.mp h).symm
          | special =>
              dsimp only at h
              split_ifs at h with hlast
              rw [hlast]
              exact (Option.some_inj.mp h).symm

theorem resolve_unlinked (hrel : Normal rel) (hlinks : ∀ q, q <+: rel → ∀ info link,
      fs.root.descend (place ++ q) ≠ some (.symlink info link))
    (h : fs.resolve false links rel place = some target) : target = place ++ rel := by
  cases links with
  | zero => exact follow_unlinked hrel hlinks h
  | succ links => exact follow_unlinked hrel hlinks h

end FileSystem

section Walks

variable {μ : Type} {skip : List String → Bool → Bool} {name : String} {file : List String × μ}

theorem Reached.beneath {path : List String} {node : FsNode μ}
    (h : Reached skip path node file) : path <+: file.1 := by
  obtain ⟨rel, -, hfile, -⟩ := h
  rw [hfile]
  exact List.prefix_append _ _

mutual

theorem filesOf_nodup (path : List String) : ∀ node : FsNode μ, node.Distinct →
    ((filesOf skip path node).map Prod.fst).Nodup
  | .file _, _ => List.nodup_singleton _
  | .symlink _ _, _ => List.nodup_nil
  | .special, _ => List.nodup_nil
  | .dir _ children, hdistinct => filesIn_nodup path children hdistinct.1 hdistinct.2

theorem filesIn_nodup (path : List String) : ∀ children : List (String × FsNode μ),
    (children.map Prod.fst).Nodup → FsNode.DistinctAll children →
      ((filesIn skip path children).map Prod.fst).Nodup
  | [], _, _ => List.nodup_nil
  | (name, node) :: rest, hnames, hdistinct => by
      rw [List.map_cons, List.nodup_cons] at hnames
      rw [filesIn, List.map_append, List.nodup_append]
      refine ⟨?_, filesIn_nodup path rest hnames.2 hdistinct.2, ?_⟩
      · split_ifs
        · exact List.nodup_nil
        · exact filesOf_nodup (path ++ [name]) node hdistinct.1
      · intro full hfull other hother
        rintro rfl
        obtain ⟨file, hfile, rfl⟩ := List.mem_map.mp hfull
        obtain ⟨file', hfile', heq⟩ := List.mem_map.mp hother
        split_ifs at hfile
        · cases hfile
        · have hbelow := ((mem_filesOf (path ++ [name]) node hdistinct.1).mp hfile).beneath
          obtain ⟨⟨name', node'⟩, hmem, -, hreached⟩ :=
            (mem_filesIn path rest hdistinct.2).mp hfile'
          have hbelow' := hreached.beneath
          rw [heq] at hbelow'
          have hlength : (path ++ [name]).length = (path ++ [name']).length := by
            rw [List.length_append, List.length_append]
            rfl
          have hsame := List.append_cancel_left
            ((List.prefix_of_prefix_length_le hbelow hbelow' hlength.le).eq_of_length hlength)
          rw [List.singleton_inj] at hsame
          exact hnames.1 (List.mem_map.mpr ⟨_, hmem, hsame.symm⟩)

end

end Walks

section Scans

variable {s : Scanner} {m : MirrorTree} {full rel : List String} {found : Found}
  {entry : LocalEntry}

theorem Scanner.mem_found : (full, found) ∈ s.found m ↔ ∃ rel file, full = m.root ++ rel ∧
    m.fs.root.descend (m.root ++ rel) = some (.file file) ∧
      Open (s.files.skips m.root) m.root rel ∧
        found = scanFile s.cache (canonicalRelative s.nfc rel) (file.disk s.hash s.fromStr) := by
  have hdescend (rel : List String) :
      m.fs.root.descend (m.root ++ rel) = (FsNode.dir m.info m.children).descend rel := by
    rw [FsNode.descend_append, m.opens]
    rfl
  unfold Scanner.found
  constructor
  · intro h
    obtain ⟨⟨path, file⟩, hfile, heq⟩ := List.mem_map.mp h
    obtain ⟨rel, hrel, hpath, hopen⟩ := MirrorTree.mem_files.mp hfile
    dsimp only at hrel hpath heq
    obtain ⟨rfl, rfl⟩ := Prod.mk.inj heq
    refine ⟨rel, file, hpath, (hdescend rel).trans hrel, hopen, ?_⟩
    rw [hpath, List.drop_left]
  · rintro ⟨rel, file, rfl, hrel, hopen, rfl⟩
    refine List.mem_map.mpr ⟨(m.root ++ rel, file), ?_, ?_⟩
    · exact MirrorTree.mem_files.mpr ⟨rel, (hdescend rel).symm.trans hrel, rfl, hopen⟩
    · dsimp only
      rw [List.drop_left]

theorem Scanner.found_entry (h : (full, .entry entry) ∈ s.found m) : ∃ rel file,
    full = m.root ++ rel ∧ m.relative full = rel ∧
      m.fs.root.descend (m.root ++ rel) = some (.file file) ∧
        (∀ name ∈ rel, Proper name) ∧ entry.path = canonicalRelative s.nfc rel := by
  obtain ⟨rel, file, hfull, hdescend, -, hfound⟩ := Scanner.mem_found.mp h
  have hproper := FsNode.Named.descend m.named hdescend
  refine ⟨rel, file, hfull, ?_, hdescend, ?_, scanFile_entry hfound.symm⟩
  · rw [MirrorTree.relative, hfull, List.drop_left]
  · exact fun name hname => hproper name (List.mem_append_right _ hname)

theorem canonicalRelative_eq (nfc : String → String) (rel : List String) :
    canonicalRelative nfc rel = String.ofList (slashed ((rel.map nfc).map String.toList)) := by
  rw [canonicalRelative, List.map_map]
  rfl

theorem MirrorTree.joined_canonical {nfc : String → String}
    (h : ∀ name ∈ rel, Proper (nfc name)) :
    m.joined (canonicalRelative nfc rel) = m.root ++ rel.map nfc := by
  have hnames : ∀ name ∈ rel.map nfc, Proper name := List.forall_mem_map.mpr h
  rw [canonicalRelative_eq, joined, String.toList_ofList, if_neg (head_slashed hnames),
    components_slashed hnames]

theorem MirrorTree.root_proper (m : MirrorTree) : ∀ name ∈ m.root, Proper name :=
  FsNode.Named.descend m.named m.opens

theorem MirrorTree.root_unlinked {q : List String} (h : q <+: m.root) (info : RawFile)
    (target : String) : m.fs.root.descend q ≠ some (.symlink info target) := by
  obtain ⟨rest, hrest⟩ := h
  intro hlink
  have hopens := m.opens
  rw [← hrest, FsNode.descend_append, hlink] at hopens
  cases rest with
  | nil => cases hopens
  | cons name rest => cases hopens

theorem MirrorTree.lands_unlinked {nfc : String → String} (h : ∀ name ∈ rel, Proper (nfc name))
    (hlinks : ∀ q, q <+: rel.map nfc → ∀ info target,
      m.fs.root.descend (m.root ++ q) ≠ some (.symlink info target))
    (hlands : m.lands (canonicalRelative nfc rel) = some full) :
    full = m.root ++ rel.map nfc := by
  have hnormal : FileSystem.Normal (m.root ++ rel.map nfc) := by
    refine normal_of_proper (List.forall_mem_append.mpr ⟨m.root_proper, ?_⟩)
    exact List.forall_mem_map.mpr h
  rw [lands, joined_canonical h] at hlands
  refine (FileSystem.resolve_unlinked hnormal (fun q hq info target => ?_) hlands).trans
    (List.nil_append _)
  rw [List.nil_append]
  rcases List.prefix_or_prefix_of_prefix hq (List.prefix_append _ _) with hroot | hbelow
  · exact m.root_unlinked hroot info target
  · obtain ⟨q, rfl⟩ := hbelow
    exact hlinks q ((List.prefix_append_right_inj _).mp hq) info target

theorem MirrorTree.lands_self {nfc : String → String} {node : FsNode RawFile}
    (hrel : ∀ name ∈ rel, Proper name) (hnfc : ∀ name ∈ rel, nfc name = name)
    (hdescend : m.fs.root.descend (m.root ++ rel) = some node) :
    m.lands (canonicalRelative nfc rel) = some (m.root ++ rel) := by
  have hproper : ∀ name ∈ rel, Proper (nfc name) := by
    intro name hname
    rw [hnfc name hname]
    exact hrel name hname
  have hsame : rel.map nfc = rel := (List.map_congr_left hnfc).trans (List.map_id _)
  rw [lands, joined_canonical hproper, hsame]
  exact FileSystem.resolve_descend _
    (normal_of_proper (List.forall_mem_append.mpr ⟨m.root_proper, hrel⟩)) hdescend

theorem Scanner.found_nodup (s : Scanner) (m : MirrorTree) :
    ((s.found m).map Prod.fst).Nodup := by
  have hnames : (s.found m).map Prod.fst = (m.walked s.files).map Prod.fst := by
    rw [Scanner.found, List.map_map]
    rfl
  rw [hnames]
  exact filesIn_nodup m.root m.children m.distinct.1 m.distinct.2

theorem Scanner.distinct_of_reopens (h : ∀ full entry, (full, .entry entry) ∈ s.found m →
    m.lands entry.path = some full) : ((s.scan m).entries.map LocalEntry.path).Nodup := by
  have hperm := (List.perm_insertionSort (fun a b : LocalEntry => a.path ≤ b.path)
    ((s.found m).filterMap fun file => Found.entry? file.2)).map LocalEntry.path
  refine hperm.nodup_iff.mpr ?_
  rw [List.Nodup, List.pairwise_map, List.pairwise_filterMap]
  have hnodup := s.found_nodup m
  rw [List.Nodup, List.pairwise_map] at hnodup
  refine hnodup.imp_of_mem ?_
  rintro ⟨full, found⟩ ⟨full', found'⟩ hmem hmem' hne entry hentry entry' hentry' hpath
  have hfound : found = .entry entry := Found.some_entry.mp hentry
  have hfound' : found' = .entry entry' := Found.some_entry.mp hentry'
  have hlands := h full entry (hfound ▸ hmem)
  have hlands' := h full' entry' (hfound' ▸ hmem')
  rw [hpath, hlands'] at hlands
  exact hne (Option.some_inj.mp hlands).symm

/-- Entries have paths of their own that lead back to the files that were read, if and only if the
names of the files are normalized, save where links stand for the directories. -/
theorem scanned_paths_identify_iff (s : Scanner) (m : MirrorTree)
    (hnfc : ∀ name, Proper name → Proper (s.nfc name)) :
    s.Identifies m ↔ ∀ full entry, (full, .entry entry) ∈ s.found m → s.Spelled m full := by
  constructor
  · intro h full entry hmem
    obtain ⟨rel, file, hfull, hrelative, hdescend, hproper, hpath⟩ := Scanner.found_entry hmem
    have hlands := h.reopens full entry hmem
    rw [hpath] at hlands
    by_cases hlinks : ∃ q info target, q <+: rel.map s.nfc ∧
        m.fs.root.descend (m.root ++ q) = some (.symlink info target)
    · rw [Scanner.Spelled, hrelative]
      exact .inr ⟨hlinks, hlands⟩
    · have hunlinked : ∀ q, q <+: rel.map s.nfc → ∀ info target,
          m.fs.root.descend (m.root ++ q) ≠ some (.symlink info target) :=
        fun q hq info target hlink => hlinks ⟨q, info, target, hq, hlink⟩
      have hsame := MirrorTree.lands_unlinked (fun name hname => hnfc name (hproper name hname))
        hunlinked hlands
      rw [hfull, List.append_cancel_left_eq] at hsame
      refine .inl fun name hname => ?_
      rw [hrelative] at hname
      exact List.map_inj_left.mp (hsame.symm.trans (List.map_id rel).symm) name hname
  · intro h
    have hreopens : ∀ full entry, (full, .entry entry) ∈ s.found m →
        m.lands entry.path = some full := by
      intro full entry hmem
      obtain ⟨rel, file, hfull, hrelative, hdescend, hproper, hpath⟩ := Scanner.found_entry hmem
      have hspelled := h full entry hmem
      rw [Scanner.Spelled, hrelative] at hspelled
      rw [hpath]
      rcases hspelled with hnames | ⟨-, hlands⟩
      · rw [hfull]
        exact MirrorTree.lands_self hproper hnames hdescend
      · exact hlands
    exact ⟨Scanner.distinct_of_reopens hreopens, hreopens⟩

namespace NameExamples

def compose (name : String) : String := if name = "e\u0301" then "\u00e9" else name

def treeOf (children : List (String × FsNode RawFile)) (hdistinct : (children.map Prod.fst).Nodup)
    (hflat : FsNode.DistinctAll children) (hnamed : FsNode.NamedAll children) : MirrorTree where
  fs :=
    { info := ⟨⟨0, 0⟩, []⟩
      children := [("mirror", .dir ⟨⟨0, 0⟩, []⟩ children)]
      distinct := by
        simp only [FsNode.Distinct, FsNode.DistinctAll, and_true]
        exact ⟨List.nodup_singleton _, hdistinct, hflat⟩ }
  named := by
    simp only [FileSystem.root, FsNode.Named, FsNode.NamedAll, and_true]
    exact ⟨by unfold Proper; decide, hnamed⟩
  root := ["mirror"]
  info := ⟨⟨0, 0⟩, []⟩
  children := children
  opens := rfl

def composed : MirrorTree :=
  treeOf [("a", .file ⟨⟨2, 0⟩, [2, 3]⟩), ("d", .dir ⟨⟨0, 0⟩, []⟩ [("b", .file ⟨⟨1, 0⟩, [1]⟩)]),
      ("\u00e9", .file ⟨⟨1, 0⟩, [1]⟩)]
    (by decide) (by simp [FsNode.Distinct, FsNode.DistinctAll])
    (by simp only [FsNode.Named, FsNode.NamedAll]; unfold Proper; decide)

def decomposed : MirrorTree :=
  treeOf [("e\u0301", .file ⟨⟨1, 0⟩, [1]⟩)] (by decide) (by simp [FsNode.Distinct, FsNode.DistinctAll])
    (by simp only [FsNode.Named, FsNode.NamedAll]; unfold Proper; decide)

def scanner : Scanner where
  files := ⟨fun _ => none, fun _ => none⟩
  nfc := compose
  hash := fun _ => 0
  fromStr := fun _ => none
  cache := ∅

theorem compose_proper (name : String) (h : Proper name) : Proper (compose name) := by
  unfold compose
  split_ifs
  · unfold Proper
    decide
  · exact h

end NameExamples

open NameExamples in
theorem scanned_paths_identify_composed : scanner.Identifies composed :=
  (scanned_paths_identify_iff scanner composed compose_proper).mpr fun full entry hmem => by
    have hfound : (scanner.found composed).map Prod.fst =
        [["mirror", "a"], ["mirror", "d", "b"], ["mirror", "\u00e9"]] := by
      decide +kernel
    have hfull := List.mem_map_of_mem (f := Prod.fst) hmem
    rw [hfound] at hfull
    have hnames : ∀ full ∈ [["mirror", "a"], ["mirror", "d", "b"], ["mirror", "\u00e9"]],
        ∀ name ∈ composed.relative full, compose name = name := by
      decide +kernel
    exact .inl (hnames full hfull)

open NameExamples in
/-- The passes do not find the file that the scan read. -/
theorem scanned_paths_identify_fails : ¬ scanner.Identifies decomposed := by
  intro h
  have hfound : scanner.found decomposed =
      [(["mirror", "e\u0301"], .entry ⟨"\u00e9", 1, 0, 0⟩)] := by decide +kernel
  have hlands := h.reopens ["mirror", "e\u0301"] ⟨"\u00e9", 1, 0, 0⟩ (by
    rw [hfound]
    exact List.mem_singleton_self _)
  exact absurd hlands (by decide +kernel)

end Scans

end FileMirror
