import FileMirror.FilteredArchive

set_option autoImplicit false

namespace FileMirror

namespace SnapNode

variable {μ ρ : Type}

mutual

def contents : SnapNode μ ρ → List ρ
  | .file recorded => [recorded]
  | .symlink _ _ => []
  | .dir _ children => contentsAll children

def contentsAll : List (String × SnapNode μ ρ) → List ρ
  | [] => []
  | (_, node) :: rest => contents node ++ contentsAll rest

end

variable {r : ρ} {l m : List (String × SnapNode μ ρ)}

theorem mem_contentsAll : r ∈ contentsAll l ↔ ∃ entry ∈ l, r ∈ entry.2.contents := by
  induction l with
  | nil => simp [contentsAll]
  | cons entry l ih =>
      obtain ⟨name, node⟩ := entry
      rw [contentsAll, List.mem_append, ih, List.exists_mem_cons_iff]

theorem mem_contentsAll_append :
    r ∈ contentsAll (l ++ m) ↔ r ∈ contentsAll l ∨ r ∈ contentsAll m := by
  simp only [mem_contentsAll, List.mem_append, or_and_right, exists_or]

theorem mem_contentsAll_newTree : r ∈ contentsAll (newTree l) ↔ r ∈ contentsAll l := by
  simp only [mem_contentsAll, newTree, List.mem_insertionSort]

theorem mem_contentsAll_toList {name : String} {node : Option (SnapNode μ ρ)} :
    r ∈ contentsAll (node.map (Prod.mk name)).toList ↔ ∃ a, node = some a ∧ r ∈ a.contents := by
  cases node with
  | none => simp [contentsAll]
  | some a => simp [contentsAll]

end SnapNode

open SnapNode

namespace Walk

variable {μ : Type} (w : Walk μ)

/-- Of what lies beneath `path`: the file at `rel` is a placeholder, or an entry on the way there
cannot be read or is left out by a filter. -/
structure Takes (path rel : List String) (info : μ) : Prop where
  passes : ∀ q r, rel = q ++ r → q ≠ [] → w.excluded (path ++ q) (r ≠ []) = false
  reads : ∀ q r, rel = q ++ r → w.fails (path ++ q) = false
  plain : ∀ q name, rel = q ++ [name] → w.stubOf name (.file info) = none

/-- The file at `rel` beneath `node` is read as `path ++ rel`. -/
def Reads (path : List String) (node : FsNode μ) (x : List String) : Prop :=
  ∃ rel info, node.descend rel = some (.file info) ∧ x = path ++ rel ∧ w.Takes path rel info

variable {w} {path rel x names : List String} {info : μ} {name : String} {node child : FsNode μ}

theorem takes_nil : w.Takes path [] info ↔ w.fails path = false := by
  constructor
  · intro h
    have hreads := h.reads [] [] rfl
    rwa [List.append_nil] at hreads
  · intro h
    constructor
    · intro q r hqr hq
      exact absurd (List.append_eq_nil_iff.mp hqr.symm).1 hq
    · intro q r hqr
      rw [(List.append_eq_nil_iff.mp hqr.symm).1, List.append_nil]
      exact h
    · intro q name hq
      exact absurd (List.append_eq_nil_iff.mp hq.symm).2 (List.cons_ne_nil _ _)

theorem takes_cons : w.Takes path (name :: rel) info ↔
    w.fails path = false ∧ w.excluded (path ++ [name]) (rel ≠ []) = false ∧
      (rel = [] → w.stubOf name (.file info) = none) ∧ w.Takes (path ++ [name]) rel info := by
  have happend : ∀ q : List String, (path ++ [name]) ++ q = path ++ name :: q := by simp
  constructor
  · intro h
    refine ⟨?_, h.passes [name] rel rfl (List.cons_ne_nil _ _), ?_, ⟨?_, ?_, ?_⟩⟩
    · have hreads := h.reads [] (name :: rel) rfl
      rwa [List.append_nil] at hreads
    · rintro rfl
      exact h.plain [] name rfl
    · intro q r hqr hq
      rw [happend]
      exact h.passes (name :: q) r (by rw [hqr]; rfl) (List.cons_ne_nil _ _)
    · intro q r hqr
      rw [happend]
      exact h.reads (name :: q) r (by rw [hqr]; rfl)
    · intro q last hq
      exact h.plain (name :: q) last (by rw [hq]; rfl)
  · rintro ⟨hfails, hpass, hplain, h⟩
    constructor
    · intro q r hqr hq
      cases q with
      | nil => exact absurd rfl hq
      | cons other q =>
          obtain ⟨rfl, rfl⟩ := List.cons.inj hqr
          cases q with
          | nil => exact hpass
          | cons next q =>
              have hlower := h.passes (next :: q) r rfl (List.cons_ne_nil _ _)
              rwa [happend] at hlower
    · intro q r hqr
      cases q with
      | nil =>
          rw [List.append_nil]
          exact hfails
      | cons other q =>
          obtain ⟨rfl, rfl⟩ := List.cons.inj hqr
          have hlower := h.reads q r rfl
          rwa [happend] at hlower
    · intro q last hq
      cases q with
      | nil =>
          obtain ⟨rfl, rfl⟩ := List.cons.inj hq
          exact hplain rfl
      | cons other q =>
          obtain ⟨_, rfl⟩ := List.cons.inj hq
          exact h.plain q last rfl

theorem isDir_of_descend (h : node.descend rel = some (.file info)) :
    node.isDir = decide (rel ≠ []) := by
  cases rel with
  | nil =>
      cases h
      rfl
  | cons name rest =>
      obtain ⟨info, children, rfl⟩ := FsNode.dir_of_descend h
      rfl

theorem stubOf_dir (h : node.isDir = true) : w.stubOf name node = none := by
  cases node with
  | dir info children => rfl
  | _ => cases h

theorem reads_child : w.excluded (path ++ [name]) child.isDir = false ∧
      w.stubOf name child = none ∧ w.fails path = false ∧ w.Reads (path ++ [name]) child x ↔
    ∃ rel info, child.descend rel = some (.file info) ∧ x = path ++ name :: rel ∧
      w.Takes path (name :: rel) info := by
  have happend : ∀ q : List String, (path ++ [name]) ++ q = path ++ name :: q := by simp
  constructor
  · rintro ⟨hpass, hstub, hfails, rel, info, hdescend, rfl, htakes⟩
    refine ⟨rel, info, hdescend, happend rel, takes_cons.mpr ⟨hfails, ?_, ?_, htakes⟩⟩
    · rw [← isDir_of_descend hdescend]
      exact hpass
    · rintro rfl
      cases hdescend
      exact hstub
  · rintro ⟨rel, info, hdescend, rfl, h⟩
    obtain ⟨hfails, hpass, hplain, htakes⟩ := takes_cons.mp h
    rw [← isDir_of_descend hdescend] at hpass
    refine ⟨hpass, ?_, hfails, rel, info, hdescend, (happend rel).symm, htakes⟩
    by_cases hrel : rel = []
    · subst hrel
      cases hdescend
      exact hplain rfl
    · apply stubOf_dir
      rw [isDir_of_descend hdescend]
      exact decide_eq_true hrel

theorem reads_dir {children : List (String × FsNode μ)}
    (hnames : (children.map Prod.fst).Nodup) :
    w.Reads path (.dir info children) x ↔ ∃ entry ∈ children,
      w.excluded (path ++ [entry.1]) entry.2.isDir = false ∧ w.stubOf entry.1 entry.2 = none ∧
        w.fails path = false ∧ w.Reads (path ++ [entry.1]) entry.2 x := by
  constructor
  · rintro ⟨rel, last, hdescend, hx, htakes⟩
    cases rel with
    | nil => cases hdescend
    | cons name rel =>
        obtain ⟨child, hchild, hrest⟩ := Option.bind_eq_some_iff.mp hdescend
        have hmem : (name, child) ∈ children := (lookup_iff_mem hnames).mp hchild
        exact ⟨(name, child), hmem, reads_child.mpr ⟨rel, last, hrest, hx, htakes⟩⟩
  · rintro ⟨⟨name, child⟩, hmem, h⟩
    obtain ⟨rel, last, hrest, hx, htakes⟩ := reads_child.mp h
    have hchild : children.lookup name = some child := (lookup_iff_mem hnames).mpr hmem
    exact ⟨name :: rel, last, Option.bind_eq_some_iff.mpr ⟨child, hchild, hrest⟩, hx, htakes⟩

mutual

theorem mem_entry (path : List String) : ∀ node : FsNode μ, node.Distinct →
    ((∃ a, w.entry path node = some a ∧ .read x ∈ a.contents) ↔ w.Reads path node x)
  | .file info, _ => by
      rw [entry]
      constructor
      · rintro ⟨a, ha, hx⟩
        split_ifs at ha with hfails
        cases ha
        rw [contents, List.mem_singleton, Content.read.injEq] at hx
        refine ⟨[], info, rfl, ?_, takes_nil.mpr (Bool.eq_false_of_not_eq_true hfails)⟩
        rw [List.append_nil, hx]
      · rintro ⟨rel, last, hdescend, rfl, htakes⟩
        cases rel with
        | nil =>
            rw [takes_nil.mp htakes, List.append_nil]
            exact ⟨_, rfl, List.mem_singleton_self _⟩
        | cons name rest => cases hdescend
  | .symlink info target, _ => by
      constructor
      · rintro ⟨a, ha, hx⟩
        cases ha
        cases hx
      · rintro ⟨rel, last, hdescend, _⟩
        cases rel with
        | nil => cases hdescend
        | cons name rest => cases hdescend
  | .special, _ => by
      constructor
      · rintro ⟨a, ha, _⟩
        cases ha
      · rintro ⟨rel, last, hdescend, _⟩
        cases rel with
        | nil => cases hdescend
        | cons name rest => cases hdescend
  | .dir info children, hdistinct => by
      rw [reads_dir hdistinct.1, entry]
      constructor
      · rintro ⟨a, ha, hx⟩
        cases ha
        rw [contents, mem_contentsAll_newTree] at hx
        by_cases hfails : w.fails path = true
        · rw [if_pos hfails] at hx
          cases hx
        · rw [if_neg hfails] at hx
          obtain ⟨child, hchild, hpass, hstub, hreads⟩ :=
            (mem_dir path (children.map Prod.fst) children hdistinct.2).mp hx
          exact ⟨child, hchild, hpass, hstub, Bool.eq_false_of_not_eq_true hfails, hreads⟩
      · rintro ⟨child, hchild, hpass, hstub, hfails, hreads⟩
        refine ⟨_, rfl, ?_⟩
        rw [contents, mem_contentsAll_newTree, hfails]
        exact (mem_dir path (children.map Prod.fst) children hdistinct.2).mpr
          ⟨child, hchild, hpass, hstub, hreads⟩

theorem mem_dir (path names : List String) : ∀ children : List (String × FsNode μ),
    FsNode.DistinctAll children →
    (.read x ∈ contentsAll (w.dir path names children) ↔ ∃ entry ∈ children,
      w.excluded (path ++ [entry.1]) entry.2.isDir = false ∧ w.stubOf entry.1 entry.2 = none ∧
        w.Reads (path ++ [entry.1]) entry.2 x)
  | [], _ => by simp [dir, contentsAll]
  | (name, node) :: rest, hdistinct => by
      rw [dir, mem_contentsAll_append, mem_dir path names rest hdistinct.2,
        List.exists_mem_cons_iff]
      refine or_congr_left ?_
      cases hpass : w.excluded (path ++ [name]) node.isDir with
      | true => simp [contentsAll]
      | false =>
          rw [if_neg Bool.false_ne_true]
          cases hstub : w.stubOf name node with
          | some real =>
              dsimp only
              split_ifs
              · simp [contentsAll, contents]
              · simp [contentsAll]
          | none =>
              dsimp only
              rw [mem_contentsAll_toList, mem_entry (path ++ [name]) node hdistinct.1]
              simp

end

end Walk

namespace Trie

mutual

def firsts : Trie → List (List String)
  | .node true _ => [[]]
  | .node false children => firstsAll children

def firstsAll : List (String × Trie) → List (List String)
  | [] => []
  | (name, child) :: rest => (firsts child).map (name :: ·) ++ firstsAll rest

end

variable {t child : Trie} {q rest : List String} {name : String} {l : List (String × Trie)}

theorem mem_firstsAll : q ∈ firstsAll l ↔
    ∃ entry ∈ l, ∃ rest ∈ entry.2.firsts, entry.1 :: rest = q := by
  induction l with
  | nil => simp [firstsAll]
  | cons entry l ih =>
      obtain ⟨name, child⟩ := entry
      rw [firstsAll, List.mem_append, List.mem_map, ih, List.exists_mem_cons_iff]

theorem mem_firstsAll_children (hdistinct : t.Distinct) :
    q ∈ firstsAll t.children ↔
      ∃ name child rest, t.children.lookup name = some child ∧ rest ∈ child.firsts ∧
        name :: rest = q := by
  have hnames := (distinct_iff.mp hdistinct).1
  rw [mem_firstsAll]
  constructor
  · rintro ⟨⟨name, child⟩, hmem, rest, hrest, hq⟩
    exact ⟨name, child, rest, (lookup_iff_mem hnames).mpr hmem, hrest, hq⟩
  · rintro ⟨name, child, rest, hchild, hrest, hq⟩
    exact ⟨(name, child), (lookup_iff_mem hnames).mp hchild, rest, hrest, hq⟩

theorem not_mem_firsts_nil (h : t.terminal = false) : [] ∉ t.firsts := by
  cases t with
  | node terminal children =>
      cases h
      intro hmem
      obtain ⟨_, _, _, _, hq⟩ := mem_firstsAll.mp hmem
      cases hq

theorem child_of_ends (h : t.Ends (name :: rest)) :
    ∃ child, t.children.lookup name = some child ∧ child.Ends rest := by
  obtain ⟨u, hu, hterminal⟩ := h
  obtain ⟨child, hchild, hrest⟩ := Option.bind_eq_some_iff.mp hu
  exact ⟨child, hchild, u, hrest, hterminal⟩

theorem mem_firsts (hdistinct : t.Distinct) :
    q ∈ t.firsts ↔ t.Ends q ∧ ∀ r s, q = r ++ s → s ≠ [] → ¬ t.Ends r := by
  induction q generalizing t with
  | nil =>
      rw [ends_nil]
      constructor
      · intro hmem
        refine ⟨?_, fun r s hrs hs => absurd (List.append_eq_nil_iff.mp hrs.symm).2 hs⟩
        by_contra hterminal
        exact not_mem_firsts_nil (Bool.eq_false_of_not_eq_true hterminal) hmem
      · rintro ⟨hterminal, _⟩
        cases t with
        | node terminal children =>
            cases hterminal
            exact List.mem_singleton_self _
  | cons name rest ih =>
      cases hterminal : t.terminal with
      | true =>
          constructor
          · intro hmem
            cases t with
            | node terminal children =>
                cases hterminal
                cases List.mem_singleton.mp hmem
          · rintro ⟨_, hfirst⟩
            exact absurd (ends_nil.mpr hterminal) (hfirst [] (name :: rest) rfl (List.cons_ne_nil _ _))
      | false =>
          have hfirsts : t.firsts = firstsAll t.children := by
            cases t with
            | node terminal children =>
                cases hterminal
                rfl
          rw [hfirsts, mem_firstsAll_children hdistinct]
          constructor
          · rintro ⟨other, child, rel, hchild, hrel, hq⟩
            obtain ⟨rfl, rfl⟩ := List.cons.inj hq
            obtain ⟨hends, hlower⟩ := (ih (hdistinct.child hchild)).mp hrel
            refine ⟨(ends_cons hchild).mpr hends, fun r s hrs hs => ?_⟩
            cases r with
            | nil =>
                rw [ends_nil, hterminal]
                exact Bool.false_ne_true
            | cons part r =>
                obtain ⟨rfl, rfl⟩ := List.cons.inj hrs
                rw [ends_cons hchild]
                exact hlower r s rfl hs
          · rintro ⟨hends, hlower⟩
            obtain ⟨child, hchild, hrest⟩ := child_of_ends hends
            refine ⟨name, child, rest, hchild, (ih (hdistinct.child hchild)).mpr ⟨hrest, ?_⟩, rfl⟩
            intro r s hrs hs hr
            exact hlower (name :: r) s (by rw [hrs]; rfl) hs ((ends_cons hchild).mpr hr)

end Trie

namespace Walk

variable {μ : Type} {w : Walk μ} {fs : FileSystem μ} {x : List String}
  {tree : List (String × SnapNode μ Content)} {kept : List (List String)}

def ReadsUnder (w : Walk μ) (fs : FileSystem μ) (path x : List String) : Prop :=
  ∃ node, fs.lstat path = some node ∧ w.Reads path node x

mutual

theorem mem_archiveChild (path : List String) : ∀ (t : Trie) (result : Option (SnapNode μ Content)),
    w.archiveChild fs path t = some result →
    ((∃ a, result = some a ∧ .read x ∈ a.contents) ↔ ∃ q ∈ t.firsts, w.ReadsUnder fs (path ++ q) x)
  | .node true _, result, h => by
      rw [archiveChild] at h
      obtain ⟨node, hnode, rfl⟩ := Option.map_eq_some_iff.mp h
      rw [mem_entry path node (FileSystem.lstat_distinct hnode)]
      constructor
      · intro hreads
        refine ⟨[], List.mem_singleton_self _, node, ?_, ?_⟩
        · rw [List.append_nil]
          exact hnode
        · rw [List.append_nil]
          exact hreads
      · rintro ⟨q, hq, other, hother, hreads⟩
        obtain rfl := List.mem_singleton.mp hq
        rw [List.append_nil] at hother hreads
        rw [hnode, Option.some.injEq] at hother
        exact hother ▸ hreads
  | .node false children, result, h => by
      rw [archiveChild] at h
      split at h
      · obtain ⟨nodes, hnodes, rfl⟩ := Option.map_eq_some_iff.mp h
        rw [Trie.firsts, ← mem_archiveChildren path children nodes hnodes]
        simp [contents, mem_contentsAll_newTree]
      · cases h

theorem mem_archiveChildren (path : List String) :
    ∀ (children : List (String × Trie)) (nodes : List (String × SnapNode μ Content)),
    w.archiveChildren fs path children = some nodes →
    (.read x ∈ contentsAll nodes ↔ ∃ q ∈ Trie.firstsAll children, w.ReadsUnder fs (path ++ q) x)
  | [], nodes, h => by
      cases h
      simp [contentsAll, Trie.firstsAll]
  | (name, child) :: rest, nodes, h => by
      rw [archiveChildren] at h
      obtain ⟨result, hresult, h⟩ := Option.bind_eq_some_iff.mp h
      obtain ⟨others, hothers, rfl⟩ := Option.map_eq_some_iff.mp h
      rw [mem_contentsAll_append, mem_contentsAll_toList,
        mem_archiveChild (path ++ [name]) child result hresult,
        mem_archiveChildren path rest others hothers, Trie.firstsAll]
      simp only [List.mem_append, List.mem_map, or_and_right, exists_or]
      refine or_congr_left ?_
      constructor
      · rintro ⟨q, hq, hreads⟩
        refine ⟨name :: q, ⟨q, hq, rfl⟩, ?_⟩
        rwa [List.append_assoc] at hreads
      · rintro ⟨_, ⟨q, hq, rfl⟩, hreads⟩
        refine ⟨q, hq, ?_⟩
        rwa [List.append_assoc]

end

theorem mem_archiveTrie (hapart : ∀ p ∈ kept, ∀ q ∈ kept, p <+: q → p = q)
    (h : w.archiveTrie fs [] (buildTrie kept) = some tree) :
    .read x ∈ contentsAll tree ↔ ∃ p ∈ kept, p ≠ [] ∧ w.ReadsUnder fs p x := by
  have hdistinct : (buildTrie kept).Distinct := Trie.distinct_buildTrie
  have hkept : ∀ p, p ∈ Trie.firstsAll (buildTrie kept).children ↔ p ∈ kept ∧ p ≠ [] := by
    intro p
    rw [Trie.mem_firstsAll_children hdistinct]
    constructor
    · rintro ⟨name, child, rest, hchild, hrest, rfl⟩
      have hends := ((Trie.mem_firsts (hdistinct.child hchild)).mp hrest).1
      exact ⟨Trie.ends_buildTrie.mp ((ends_cons hchild).mpr hends), List.cons_ne_nil _ _⟩
    · rintro ⟨hp, hne⟩
      cases p with
      | nil => exact absurd rfl hne
      | cons name rest =>
          have hends : (buildTrie kept).Ends (name :: rest) := Trie.ends_buildTrie.mpr hp
          obtain ⟨child, hchild, hrest⟩ := Trie.child_of_ends hends
          refine ⟨name, child, rest, hchild, ?_, rfl⟩
          refine (Trie.mem_firsts (hdistinct.child hchild)).mpr ⟨hrest, ?_⟩
          intro r s hrs hs hr
          have hshort := Trie.ends_buildTrie.mp ((ends_cons hchild).mpr hr)
          have heq := hapart _ hshort _ hp ⟨s, by rw [hrs]; rfl⟩
          rw [hrs, List.cons.injEq] at heq
          exact hs (List.self_eq_append_right.mp heq.2)
  cases htrie : buildTrie kept with
  | node terminal children =>
      rw [htrie] at h hkept
      rw [archiveTrie] at h
      obtain ⟨nodes, hnodes, rfl⟩ := Option.map_eq_some_iff.mp h
      rw [mem_contentsAll_newTree, mem_archiveChildren [] children nodes hnodes]
      constructor
      · rintro ⟨p, hp, hreads⟩
        obtain ⟨hmem, hne⟩ := (hkept p).mp hp
        exact ⟨p, hmem, hne, hreads⟩
      · rintro ⟨p, hmem, hne, hreads⟩
        exact ⟨p, (hkept p).mpr ⟨hmem, hne⟩, hreads⟩

end Walk

end FileMirror
