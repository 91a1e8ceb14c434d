import FileMirror.PathTries

set_option autoImplicit false

namespace FileMirror

section Coverage

variable {μ ρ : Type} (archiveFile : List String → μ → ρ) (skips : List String → Bool)
  (fs : FileSystem μ)

def alone (path : List String) : Option (SnapNode μ ρ) :=
  (fs.lstat path).bind fun node => (archiveEntry archiveFile skips path node).join

def entryAt (tree : List (String × SnapNode μ ρ)) : List String → Option (Recorded μ ρ)
  | [] => none
  | name :: rest =>
      ((tree.lookup name).bind fun node => node.descend rest).map SnapNode.entry

structure Covers (tree : List (String × SnapNode μ ρ)) (paths : List String) : Prop where
  contains : ∀ p ∈ paths, ∃ a, alone archiveFile skips fs (cleanPath p) = some a ∧
    ∀ rel b, a.descend rel = some b → cleanPath p ++ rel ≠ [] →
      entryAt tree (cleanPath p ++ rel) = some b.entry
  nothing : ∀ path e, entryAt tree path = some e →
    (∃ p ∈ paths, ∃ a rel b, alone archiveFile skips fs (cleanPath p) = some a ∧
      path = cleanPath p ++ rel ∧ a.descend rel = some b ∧ e = b.entry) ∨
    ∃ p ∈ paths, ∃ info, path <+: cleanPath p ∧ path ≠ cleanPath p ∧ e = .dir info

/-- The root directory is not asked for, unless nothing in it can be archived; and what lies beneath
another requested path, or is one, is reached from it through directories alone and can be archived. -/
structure Coverable (paths : List String) : Prop where
  root : ∀ p ∈ paths, cleanPath p = [] →
    ∃ info, alone archiveFile skips fs [] = some (.dir info [])
  below : ∀ p ∈ paths, ∀ q ∈ paths, ∀ rel, cleanPath p = cleanPath q ++ rel →
    ∃ node next, fs.lstat (cleanPath q) = some node ∧ node.descend rel = some next ∧
      next ≠ .special

variable {archiveFile skips fs} {path rel q : List String} {t : Trie} {a b c : SnapNode μ ρ}
  {tree : List (String × SnapNode μ ρ)} {name : String}

theorem archiveChildren_eq_collect {children : List (String × Trie)} :
    archiveChildren archiveFile skips fs path children =
      collect (fun name => archiveChild archiveFile skips fs (path ++ [name])) children := by
  induction children with
  | nil => rfl
  | cons entry children ih =>
      obtain ⟨name, child⟩ := entry
      rw [archiveChildren, collect, ih]

theorem archiveTrie_lookup (hdistinct : t.Distinct)
    (h : archiveTrie archiveFile skips fs path t = some tree) :
    tree.lookup name = some a ↔ ∃ child, t.children.lookup name = some child ∧
      archiveChild archiveFile skips fs (path ++ [name]) child = some (some a) := by
  obtain ⟨hnames, _⟩ := Trie.distinct_iff.mp hdistinct
  cases t with
  | node terminal children =>
      rw [archiveTrie, archiveChildren_eq_collect] at h
      obtain ⟨nodes, hnodes, rfl⟩ := Option.map_eq_some_iff.mp h
      rw [newTree_lookup (hnames.sublist (collect_keys hnodes))]
      exact collect_lookup hnames hnodes

theorem archiveTrie_total {child : Trie} (h : archiveTrie archiveFile skips fs path t = some tree)
    (hchild : t.children.lookup name = some child) :
    ∃ result, archiveChild archiveFile skips fs (path ++ [name]) child = some result := by
  cases t with
  | node terminal children =>
      rw [archiveTrie, archiveChildren_eq_collect] at h
      obtain ⟨nodes, hnodes, _⟩ := Option.map_eq_some_iff.mp h
      exact collect_total hnodes hchild

theorem archiveChild_leading {result : Option (SnapNode μ ρ)} (hterminal : t.terminal = false)
    (h : archiveChild archiveFile skips fs path t = some result) :
    ∃ info tree, result = some (.dir info tree) ∧
      archiveTrie archiveFile skips fs path t = some tree := by
  cases t with
  | node terminal children =>
      cases hterminal
      rw [archiveChild] at h
      split at h
      · obtain ⟨nodes, hnodes, rfl⟩ := Option.map_eq_some_iff.mp h
        refine ⟨_, _, rfl, ?_⟩
        rw [archiveTrie, hnodes]
        rfl
      · cases h

theorem archiveChild_terminal (hterminal : t.terminal = true) :
    archiveChild archiveFile skips fs path t =
      (fs.lstat path).bind (archiveEntry archiveFile skips path) := by
  cases t with
  | node terminal children =>
      cases hterminal
      rw [archiveChild]

theorem alone_iff : alone archiveFile skips fs path = some c ↔
    (fs.lstat path).bind (archiveEntry archiveFile skips path) = some (some c) := by
  rw [alone]
  cases fs.lstat path with
  | none => simp
  | some node => simp [Option.join_eq_some_iff]

theorem ends_nil : t.Ends [] ↔ t.terminal = true := by
  constructor
  · rintro ⟨u, hu, hterminal⟩
    cases hu
    exact hterminal
  · exact fun hterminal => ⟨t, rfl, hterminal⟩

theorem ends_cons {child : Trie} (hchild : t.children.lookup name = some child) :
    t.Ends (name :: rel) ↔ child.Ends rel := by
  unfold Trie.Ends
  rw [Trie.descend, hchild]
  rfl

theorem has_cons {child : Trie} (hchild : t.children.lookup name = some child) :
    t.Has (name :: rel) ↔ child.Has rel := by
  unfold Trie.Has
  rw [Trie.descend, hchild]
  rfl

theorem archiveChild_descend (hdistinct : t.Distinct)
    (h : archiveChild archiveFile skips fs path t = some (some a)) (hb : a.descend rel = some b) :
    (∃ q r c, rel = q ++ r ∧ t.Ends q ∧ alone archiveFile skips fs (path ++ q) = some c ∧
      c.descend r = some b) ∨
    (t.Has rel ∧ ¬ t.Ends rel ∧ ∃ info, b.entry = .dir info) := by
  induction rel generalizing path t a with
  | nil =>
      cases hterminal : t.terminal with
      | true =>
          refine .inl ⟨[], [], a, rfl, ends_nil.mpr hterminal, ?_, hb⟩
          rw [List.append_nil, alone_iff, ← archiveChild_terminal hterminal, h]
      | false =>
          obtain ⟨info, tree, ha, _⟩ := archiveChild_leading hterminal h
          cases ha
          cases hb
          refine .inr ⟨rfl, ?_, info, rfl⟩
          rw [ends_nil, hterminal]
          exact Bool.false_ne_true
  | cons name rest ih =>
      cases hterminal : t.terminal with
      | true =>
          refine .inl ⟨[], name :: rest, a, rfl, ends_nil.mpr hterminal, ?_, hb⟩
          rw [List.append_nil, alone_iff, ← archiveChild_terminal hterminal, h]
      | false =>
          obtain ⟨info, tree, ha, htree⟩ := archiveChild_leading hterminal h
          cases ha
          obtain ⟨next, hnext, hrest⟩ := Option.bind_eq_some_iff.mp hb
          obtain ⟨child, hchild, harchived⟩ := (archiveTrie_lookup hdistinct htree).mp hnext
          obtain ⟨q, r, c, rfl, hends, halone, hc⟩ | ⟨hhas, hends, hentry⟩ :=
            ih (hdistinct.child hchild) harchived hrest
          · refine .inl ⟨name :: q, r, c, rfl, (ends_cons hchild).mpr hends, ?_, hc⟩
            rw [← halone, List.append_assoc]
            rfl
          · exact .inr ⟨(has_cons hchild).mpr hhas, fun h => hends ((ends_cons hchild).mp h), hentry⟩

theorem archiveTrie_ends {rest : List String} (hdistinct : t.Distinct)
    (h : archiveTrie archiveFile skips fs path t = some tree) (hends : t.Ends (name :: rest))
    (hfirst : ∀ r s, name :: rest = r ++ s → r ≠ [] → s ≠ [] → ¬ t.Ends r) :
    ∃ result, (fs.lstat (path ++ name :: rest)).bind
        (archiveEntry archiveFile skips (path ++ name :: rest)) = some result ∧
      ∀ c, result = some c →
        ((tree.lookup name).bind fun node => node.descend rest) = some c := by
  induction rest generalizing path t tree name with
  | nil =>
      obtain ⟨u, hu, hterminal⟩ := hends
      obtain ⟨child, hchild, heq⟩ := Option.bind_eq_some_iff.mp hu
      obtain rfl : child = u := Option.some.inj heq
      obtain ⟨result, hresult⟩ := archiveTrie_total h hchild
      refine ⟨result, ?_, ?_⟩
      · rw [← archiveChild_terminal hterminal, hresult]
      · rintro c rfl
        exact Option.bind_eq_some_iff.mpr
          ⟨c, (archiveTrie_lookup hdistinct h).mpr ⟨child, hchild, hresult⟩, rfl⟩
  | cons other rest ih =>
      obtain ⟨child, hchild⟩ : ∃ child, t.children.lookup name = some child := by
        obtain ⟨u, hu, _⟩ := hends
        obtain ⟨child, hchild, _⟩ := Option.bind_eq_some_iff.mp hu
        exact ⟨child, hchild⟩
      have hterminal : child.terminal = false := by
        rw [← Bool.not_eq_true, ← ends_nil, ← ends_cons hchild]
        exact hfirst [name] (other :: rest) rfl (List.cons_ne_nil _ _) (List.cons_ne_nil _ _)
      obtain ⟨result, hresult⟩ := archiveTrie_total h hchild
      obtain ⟨info, inner, rfl, hinner⟩ := archiveChild_leading hterminal hresult
      have hlower : ∀ r s, other :: rest = r ++ s → r ≠ [] → s ≠ [] → ¬ child.Ends r := by
        intro r s hrs _ hs hr
        refine hfirst (name :: r) s ?_ (List.cons_ne_nil _ _) hs ((ends_cons hchild).mpr hr)
        rw [hrs, List.cons_append]
      obtain ⟨last, hlast, hfound⟩ :=
        ih (hdistinct.child hchild) hinner ((ends_cons hchild).mp hends) hlower
      have happend : path ++ name :: other :: rest = (path ++ [name]) ++ other :: rest := by simp
      refine ⟨last, ?_, fun c hc => Option.bind_eq_some_iff.mpr ⟨.dir info inner, ?_, ?_⟩⟩
      · rw [happend]
        exact hlast
      · exact (archiveTrie_lookup hdistinct h).mpr ⟨child, hchild, hresult⟩
      · exact hfound c hc

variable {paths : List String} {kept : List (List String)}

theorem entryAt_cases {e : Recorded μ ρ}
    (h : archiveTrie archiveFile skips fs [] (buildTrie kept) = some tree)
    (he : entryAt tree path = some e) :
    (∃ k r c b, k ∈ kept ∧ k ≠ [] ∧ path = k ++ r ∧ alone archiveFile skips fs k = some c ∧
      c.descend r = some b ∧ e = b.entry) ∨
    (path ≠ [] ∧ path ∉ kept ∧ (∃ k ∈ kept, path <+: k) ∧ ∃ info, e = .dir info) := by
  cases path with
  | nil => cases he
  | cons name rest =>
      obtain ⟨b, hb, rfl⟩ := Option.map_eq_some_iff.mp he
      obtain ⟨node, hnode, hdescend⟩ := Option.bind_eq_some_iff.mp hb
      obtain ⟨child, hchild, harchived⟩ := (archiveTrie_lookup Trie.distinct_buildTrie h).mp hnode
      obtain ⟨q, r, c, rfl, hends, halone, hc⟩ | ⟨hhas, hends, info, hentry⟩ :=
        archiveChild_descend (Trie.distinct_buildTrie.child hchild) harchived hdescend
      · have hkept := Trie.ends_buildTrie.mp ((ends_cons hchild).mpr hends)
        exact .inl ⟨name :: q, r, c, b, hkept, List.cons_ne_nil _ _, rfl, halone, hc, rfl⟩
      · have hleads := Trie.has_buildTrie.mp ((has_cons hchild).mpr hhas)
        refine .inr ⟨List.cons_ne_nil _ _, ?_, hleads.resolve_left (List.cons_ne_nil _ _), info, hentry⟩
        intro hkept
        exact hends ((ends_cons hchild).mp (Trie.ends_buildTrie.mpr hkept))

theorem entryAt_kept {k : List String}
    (h : archiveTrie archiveFile skips fs [] (buildTrie kept) = some tree)
    (hapart : ∀ x ∈ kept, ∀ y ∈ kept, x <+: y → x = y) (hk : k ∈ kept) (hne : k ≠ []) :
    ∃ result, (fs.lstat k).bind (archiveEntry archiveFile skips k) = some result ∧
      ∀ c, result = some c → ∀ rel b, c.descend rel = some b →
        entryAt tree (k ++ rel) = some b.entry := by
  have hfirst : ∀ r s, k = r ++ s → r ≠ [] → s ≠ [] → ¬ (buildTrie kept).Ends r := by
    intro r s hrs _ hs hends
    have hr := Trie.ends_buildTrie.mp hends
    have heq : r = k := hapart r hr k hk ⟨s, hrs.symm⟩
    rw [hrs] at heq
    exact hs (List.append_right_eq_self.mp heq.symm)
  cases k with
  | nil => exact absurd rfl hne
  | cons name rest =>
      have hends : (buildTrie kept).Ends (name :: rest) := Trie.ends_buildTrie.mpr hk
      obtain ⟨result, hresult, hfound⟩ := archiveTrie_ends Trie.distinct_buildTrie h hends hfirst
      refine ⟨result, hresult, fun c hc rel b hb => ?_⟩
      obtain ⟨node, hnode, hnodec⟩ := Option.bind_eq_some_iff.mp (hfound c hc)
      rw [List.cons_append, entryAt, hnode, Option.bind_some, SnapNode.descend_append, hnodec,
        Option.bind_some, hb, Option.map_some]

theorem cleanPath_normal (p : String) : FileSystem.Normal (cleanPath p) := by
  have hfold : ∀ (parts out : List String), FileSystem.Normal out → FileSystem.Normal
      (parts.foldl (fun out part =>
        if part = "." then out else if part = ".." then out.dropLast else out ++ [part]) out) := by
    intro parts
    induction parts with
    | nil => exact fun out hout => hout
    | cons part parts ih =>
        intro out hout
        refine ih _ ?_
        dsimp only
        split_ifs with hdot hdots
        · exact hout
        · exact fun name hname => hout name (List.dropLast_subset _ hname)
        · intro name hname
          obtain hname | hname := List.mem_append.mp hname
          · exact hout name hname
          · rw [List.mem_singleton.mp hname]
            exact ⟨hdot, hdots⟩
  exact hfold _ [] fun name hname => absurd hname List.not_mem_nil

theorem cleanPath_subset (p : String) : cleanPath p ⊆ FileSystem.components p := by
  have hfold : ∀ (parts out : List String), parts.foldl (fun out part =>
      if part = "." then out else if part = ".." then out.dropLast else out ++ [part]) out ⊆
        out ++ parts := by
    intro parts
    induction parts with
    | nil => exact fun out name hname => List.mem_append_left _ hname
    | cons part parts ih =>
        intro out name hname
        have hmem := ih _ hname
        dsimp only at hmem
        rw [List.mem_append] at hmem ⊢
        obtain hmem | hmem := hmem
        · split_ifs at hmem
          · exact .inl hmem
          · exact .inl (List.dropLast_subset _ hmem)
          · obtain hmem | hmem := List.mem_append.mp hmem
            · exact .inl hmem
            · exact .inr (List.mem_singleton.mp hmem ▸ List.mem_cons_self)
        · exact .inr (List.mem_cons_of_mem _ hmem)
  exact hfold _ []

theorem backup_some (h : backup archiveFile skips fs paths = some tree) :
    (∀ k ∈ normalizePaths paths, ∃ node, fs.lstat k = some node) ∧
      archiveTrie archiveFile skips fs [] (buildTrie (normalizePaths paths)) = some tree := by
  unfold backup at h
  dsimp only at h
  split_ifs at h with hmissing
  refine ⟨fun k hk => ?_, h⟩
  by_contra hnone
  refine hmissing (.inr ⟨k, hk, ?_⟩)
  rw [Option.isNone_iff_eq_none, Option.eq_none_iff_forall_ne_some]
  exact fun node hnode => hnone ⟨node, hnode⟩

theorem kept_clean {k : List String} (hk : k ∈ normalizePaths paths) :
    ∃ p ∈ paths, cleanPath p = k := by
  have hmem : k ∈ paths.map cleanPath := Outermost.outermost_subset hk
  exact List.mem_map.mp hmem

theorem clean_kept {p : String} (hp : p ∈ paths) :
    ∃ k ∈ normalizePaths paths, ∃ rel, cleanPath p = k ++ rel := by
  have hmem : cleanPath p ∈ paths.map cleanPath := List.mem_map_of_mem hp
  obtain ⟨k, hk, rel, hrel⟩ := Outermost.outermost_covers hmem
  exact ⟨k, hk, rel, hrel.symm⟩

theorem kept_apart : ∀ x ∈ normalizePaths paths, ∀ y ∈ normalizePaths paths, x <+: y → x = y :=
  fun _ hx _ hy h => Outermost.outermost_apart hx hy h

theorem entryAt_root (h : archiveTrie archiveFile skips fs [] (buildTrie kept) = some tree)
    (hapart : ∀ x ∈ kept, ∀ y ∈ kept, x <+: y → x = y) (hroot : [] ∈ kept) :
    entryAt tree path = none := by
  have honly : ∀ k ∈ kept, k = [] := fun k hk => (hapart [] hroot k hk List.nil_prefix).symm
  rw [Option.eq_none_iff_forall_ne_some]
  intro e he
  obtain ⟨k, _, _, _, hk, hne, _⟩ | ⟨hne, _, ⟨k, hk, hprefix⟩, _⟩ := entryAt_cases h he
  · exact hne (honly k hk)
  · rw [honly k hk] at hprefix
    exact hne (List.prefix_nil.mp hprefix)

theorem alone_beneath {node next : FsNode μ} {result : Option (SnapNode μ ρ)}
    (hnormal : FileSystem.Normal rel) (hnode : fs.lstat path = some node)
    (hnext : node.descend rel = some next) (hspecial : next ≠ .special)
    (hresult : (fs.lstat path).bind (archiveEntry archiveFile skips path) = some result) :
    ∃ c a, result = some c ∧ alone archiveFile skips fs (path ++ rel) = some a ∧
      c.descend rel = some a := by
  rw [hnode, Option.bind_some] at hresult
  obtain ⟨c, rfl⟩ := archiveEntry_kept (special_of_descend hnext hspecial) hresult
  obtain ⟨a, ha⟩ := archiveEntry_reach hresult hnext hspecial
  refine ⟨c, a, rfl, ?_, ?_⟩
  · rw [alone_iff, FileSystem.lstat_append hnormal hnode hnext]
    exact ha
  · exact (archiveEntry_descend (FileSystem.lstat_distinct hnode) hresult).mpr ⟨next, hnext, ha⟩

theorem normal_of_append {k : List String} {p : String} (h : cleanPath p = k ++ rel) :
    FileSystem.Normal rel :=
  fun name hname => cleanPath_normal p name (h ▸ List.mem_append_right k hname)

theorem Coverable.contains_root (h : Coverable archiveFile skips fs paths)
    (hroot : [] ∈ normalizePaths paths) {p : String} (hp : p ∈ paths) :
    ∃ info, cleanPath p = [] ∧ alone archiveFile skips fs [] = some (.dir info []) := by
  obtain ⟨q, hq, hqnil⟩ := kept_clean hroot
  obtain ⟨info, halone⟩ := h.root q hq hqnil
  refine ⟨info, ?_, halone⟩
  obtain ⟨node, next, hnode, hnext, hspecial⟩ := h.below p hp q hq (cleanPath p) (by rw [hqnil]; rfl)
  rw [hqnil] at hnode
  obtain ⟨c, a, hc, _, ha⟩ :=
    alone_beneath (cleanPath_normal p) hnode hnext hspecial (alone_iff.mp halone)
  cases hc
  cases hclean : cleanPath p with
  | nil => rfl
  | cons name rest =>
      rw [hclean] at ha
      cases ha

theorem Coverable.covers (h : Coverable archiveFile skips fs paths)
    (hbackup : backup archiveFile skips fs paths = some tree) :
    Covers archiveFile skips fs tree paths := by
  obtain ⟨_, htree⟩ := backup_some hbackup
  constructor
  · intro p hp
    by_cases hroot : [] ∈ normalizePaths paths
    · obtain ⟨info, hclean, halone⟩ := h.contains_root hroot hp
      rw [hclean]
      refine ⟨_, halone, fun rel b hb hne => ?_⟩
      cases rel with
      | nil => exact absurd rfl hne
      | cons name rest => cases hb
    · obtain ⟨k, hk, rel, hrel⟩ := clean_kept hp
      have hne : k ≠ [] := fun hnil => hroot (hnil ▸ hk)
      obtain ⟨q, hq, rfl⟩ := kept_clean hk
      obtain ⟨node, next, hnode, hnext, hspecial⟩ := h.below p hp q hq rel hrel
      obtain ⟨result, hresult, hfound⟩ := entryAt_kept htree kept_apart hk hne
      obtain ⟨c, a, hc, halone, ha⟩ :=
        alone_beneath (normal_of_append hrel) hnode hnext hspecial hresult
      rw [hrel]
      refine ⟨a, halone, fun lower b hb _ => ?_⟩
      rw [List.append_assoc]
      apply hfound c hc
      rw [SnapNode.descend_append, ha]
      exact hb
  · intro path e he
    obtain ⟨k, r, c, b, hk, _, hpath, halone, hb, heq⟩ |
      ⟨_, hnot, ⟨k, hk, hprefix⟩, info, heq⟩ := entryAt_cases htree he
    · obtain ⟨q, hq, rfl⟩ := kept_clean hk
      exact .inl ⟨q, hq, c, r, b, halone, hpath, hb, heq⟩
    · obtain ⟨q, hq, rfl⟩ := kept_clean hk
      exact .inr ⟨q, hq, info, hprefix, fun hsame => hnot (hsame ▸ hk), heq⟩

theorem Covers.root_empty (h : Covers archiveFile skips fs tree paths)
    (hbackup : backup archiveFile skips fs paths = some tree) {p : String} (hp : p ∈ paths)
    (hclean : cleanPath p = []) :
    ∃ info, alone archiveFile skips fs [] = some (.dir info []) := by
  obtain ⟨_, htree⟩ := backup_some hbackup
  obtain ⟨k, hk, rel, hrel⟩ := clean_kept hp
  have hroot : [] ∈ normalizePaths paths := by
    rw [hclean] at hrel
    rw [← (List.append_eq_nil_iff.mp hrel.symm).1]
    exact hk
  obtain ⟨a, halone, hcontains⟩ := h.contains p hp
  rw [hclean] at halone hcontains
  have harchived : archiveEntry archiveFile skips [] fs.root = some (some a) := alone_iff.mp halone
  rw [FileSystem.root, archiveEntry] at harchived
  obtain ⟨nodes, _, ha⟩ := Option.map_eq_some_iff.mp harchived
  cases ha
  refine ⟨fs.info, ?_⟩
  have hempty : newTree nodes = [] := by
    apply eq_nil_of_lookup
    intro name
    rw [Option.eq_none_iff_forall_ne_some]
    intro b hb
    have hdescend : (SnapNode.dir fs.info (newTree nodes)).descend [name] = some b := by
      change ((newTree nodes).lookup name).bind some = some b
      rw [hb, Option.bind_some]
    have hentry := hcontains [name] b hdescend (List.cons_ne_nil _ _)
    rw [entryAt_root htree kept_apart hroot] at hentry
    cases hentry
  rw [halone, hempty]

theorem Covers.within (h : Covers archiveFile skips fs tree paths)
    (hbackup : backup archiveFile skips fs paths = some tree) {p : String} (hp : p ∈ paths)
    (hne : cleanPath p ≠ []) {k : List String} (hk : k ∈ normalizePaths paths)
    (hrel : cleanPath p = k ++ rel) :
    ∃ node next, fs.lstat k = some node ∧ node.descend rel = some next ∧ next ≠ .special := by
  obtain ⟨_, htree⟩ := backup_some hbackup
  obtain ⟨a, _, hcontains⟩ := h.contains p hp
  have hentry := hcontains [] a rfl (by rwa [List.append_nil])
  rw [List.append_nil] at hentry
  obtain ⟨x, r, c, b, hx, _, hpath, halone, hb, _⟩ | ⟨_, hnot, ⟨x, hx, hprefix⟩, _⟩ :=
    entryAt_cases htree hentry
  · have hsame : k = x := by
      obtain hkx | hxk := List.prefix_or_prefix_of_prefix ⟨rel, hrel.symm⟩ ⟨r, hpath.symm⟩
      · exact kept_apart k hk x hx hkx
      · exact (kept_apart x hx k hk hxk).symm
    subst hsame
    obtain rfl : r = rel := List.append_cancel_left (hpath.symm.trans hrel)
    obtain ⟨node, hnode, harchived⟩ := Option.bind_eq_some_iff.mp (alone_iff.mp halone)
    obtain ⟨next, hnext, hlast⟩ :=
      (archiveEntry_descend (FileSystem.lstat_distinct hnode) harchived).mp hb
    exact ⟨node, next, hnode, hnext, archiveEntry_special hlast⟩
  · have hsame : k = x := kept_apart k hk x hx (List.IsPrefix.trans ⟨rel, hrel.symm⟩ hprefix)
    subst hsame
    have hback : k <+: cleanPath p := ⟨rel, hrel.symm⟩
    have hwhole : cleanPath p = k := hprefix.eq_of_length_le hback.length_le
    exact absurd (hwhole ▸ hk) hnot

theorem Covers.coverable (h : Covers archiveFile skips fs tree paths)
    (hbackup : backup archiveFile skips fs paths = some tree) :
    Coverable archiveFile skips fs paths := by
  constructor
  · intro p hp hclean
    exact h.root_empty hbackup hp hclean
  · intro p hp q hq rel hrel
    by_cases hempty : rel = []
    · obtain ⟨a, halone, _⟩ := h.contains p hp
      obtain ⟨node, hnode, harchived⟩ := Option.bind_eq_some_iff.mp (alone_iff.mp halone)
      rw [hempty, List.append_nil] at hrel
      rw [hrel] at hnode
      exact ⟨node, node, hnode, hempty ▸ rfl, archiveEntry_special harchived⟩
    · have hne : cleanPath p ≠ [] := by
        rw [hrel]
        exact fun hnil => hempty (List.append_eq_nil_iff.mp hnil).2
      obtain ⟨k, hk, above, habove⟩ := clean_kept hq
      have hlong : cleanPath p = k ++ (above ++ rel) := by rw [hrel, habove, List.append_assoc]
      obtain ⟨node, next, hnode, hnext, hspecial⟩ := h.within hbackup hp hne hk hlong
      rw [FsNode.descend_append] at hnext
      obtain ⟨middle, hmiddle, hrest⟩ := Option.bind_eq_some_iff.mp hnext
      refine ⟨middle, next, ?_, hrest, hspecial⟩
      rw [habove]
      exact FileSystem.lstat_append (normal_of_append habove) hnode hmiddle

/-- A snapshot holds what was asked for exactly where each requested path lies beneath another, if it
does, as entries of real directories, and where the root directory is not asked for. -/
theorem snapshot_covers_iff (hbackup : backup archiveFile skips fs paths = some tree) :
    Covers archiveFile skips fs tree paths ↔ Coverable archiveFile skips fs paths := by
  constructor
  · exact fun h => h.coverable hbackup
  · exact fun h => h.covers hbackup

end Coverage

namespace SnapshotExamples

/-- `/a/f`, `/a/link` and where the link leads. -/
def linked : FileSystem Unit where
  info := ()
  children :=
    [("a", .dir () [("f", .file ()), ("link", .symlink () "/d")]), ("d", .dir () [("g", .file ())])]
  distinct := by simp [FsNode.Distinct, FsNode.DistinctAll]

def archived (paths : List String) : Option (List (String × SnapNode Unit Unit)) :=
  backup (fun _ _ => ()) (fun _ => true) linked paths

def entryOf (paths : List String) (path : List String) : Option (Recorded Unit Unit) :=
  (archived paths).bind fun tree => entryAt tree path

end SnapshotExamples

open SnapshotExamples in
/-- A path in a requested directory is covered by it, however it is spelled. -/
theorem snapshot_covers_nested : ∃ tree, archived ["/a/./f", "/d/../a"] = some tree ∧
    Covers (fun _ _ => ()) (fun _ => true) linked tree ["/a/./f", "/d/../a"] := by
  obtain ⟨tree, htree⟩ := Option.isSome_iff_exists.mp
    (show (archived ["/a/./f", "/d/../a"]).isSome = true by decide +kernel)
  refine ⟨tree, htree, (snapshot_covers_iff htree).mpr ⟨?_, ?_⟩⟩
  · intro p hp hclean
    have hnot : ∀ p ∈ ["/a/./f", "/d/../a"], cleanPath p ≠ [] := by decide +kernel
    exact absurd hclean (hnot p hp)
  · intro p hp q hq rel hrel
    have hf : cleanPath "/a/./f" = ["a", "f"] := by decide +kernel
    have ha : cleanPath "/d/../a" = ["a"] := by decide +kernel
    have hmem : ∀ p ∈ ["/a/./f", "/d/../a"], p = "/a/./f" ∨ p = "/d/../a" := by simp
    obtain rfl | rfl := hmem p hp <;> obtain rfl | rfl := hmem q hq
    · rw [hf, List.self_eq_append_right] at hrel
      rw [hf, hrel]
      exact ⟨.file (), .file (), rfl, rfl, by simp⟩
    · rw [hf, ha] at hrel
      obtain rfl : ["f"] = rel := (List.cons.inj hrel).2
      rw [ha]
      exact ⟨_, .file (), rfl, rfl, by simp⟩
    · rw [hf, ha] at hrel
      cases hrel
    · rw [ha, List.self_eq_append_right] at hrel
      rw [ha, hrel]
      exact ⟨_, _, rfl, rfl, by simp⟩

open SnapshotExamples in
/-- Asked for the root directory a snapshot is empty, and what is beneath a link goes missing when a
directory above the link is asked for too. -/
theorem snapshot_misses_paths :
    (∃ tree, archived ["/"] = some tree ∧
      ¬ Covers (fun _ _ => ()) (fun _ => true) linked tree ["/"]) ∧
    ∃ tree, archived ["/a", "/a/link/g"] = some tree ∧
      ¬ Covers (fun _ _ => ()) (fun _ => true) linked tree ["/a", "/a/link/g"] := by
  constructor
  · obtain ⟨tree, htree⟩ := Option.isSome_iff_exists.mp
      (show (archived ["/"]).isSome = true by decide +kernel)
    refine ⟨tree, htree, fun h => ?_⟩
    obtain ⟨info, halone⟩ := (h.coverable htree).root "/" (List.mem_singleton_self _) (by decide +kernel)
    have hentry : ((alone (fun _ _ => ()) (fun _ => true) linked []).bind fun a : SnapNode Unit Unit =>
        (a.descend ["a"]).map SnapNode.entry) = some (.dir ()) := by decide +kernel
    rw [halone] at hentry
    cases hentry
  · obtain ⟨tree, htree⟩ := Option.isSome_iff_exists.mp
      (show (archived ["/a", "/a/link/g"]).isSome = true by decide +kernel)
    refine ⟨tree, htree, fun h => ?_⟩
    obtain ⟨a, halone, hcontains⟩ := h.contains "/a/link/g" (by simp)
    have hentry := hcontains [] a rfl (by decide +kernel)
    have hnone : entryOf ["/a", "/a/link/g"] (cleanPath "/a/link/g" ++ []) = none := by decide +kernel
    rw [entryOf, htree, Option.bind_some, hentry] at hnone
    cases hnone

end FileMirror
