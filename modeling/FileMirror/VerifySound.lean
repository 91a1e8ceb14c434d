import FileMirror.VerifyReads

set_option autoImplicit false

namespace FileMirror.Verify

open PackFormat SeenWalks SortedLookup TreeFormat

section Files

variable {repo : Repository} {child : String} {node : TreeFormat.Node} {c c' c'' : Checking}
  {f : FileCheck}

def chunkLength (repo : Repository) (chunk : ObjectId) : ℕ :=
  (repo.index.lookup chunk).elim 0 fun l => l.entry.plainLength

structure FileWhole (repo : Repository) (node : TreeFormat.Node) : Prop where
  listed : ∀ chunk ∈ node.content, (repo.index.lookup chunk).isSome
  size : (node.content.map (chunkLength repo)).sum = node.size

theorem checkChunks_spec (content : List ObjectId) :
    (content.foldl (checkChunk repo child) f).total =
        f.total + (content.map (chunkLength repo)).sum ∧
      ((content.foldl (checkChunk repo child) f).complete = true ↔
        f.complete = true ∧ ∀ chunk ∈ content, (repo.index.lookup chunk).isSome) ∧
      (content.foldl (checkChunk repo child) f).checking.seen = f.checking.seen ∧
      f.checking.problems <+: (content.foldl (checkChunk repo child) f).checking.problems ∧
      ((content.foldl (checkChunk repo child) f).checking.problems = f.checking.problems ↔
        ∀ chunk ∈ content, (repo.index.lookup chunk).isSome) := by
  induction content generalizing f with
  | nil => simp
  | cons chunk content ih =>
      rw [List.foldl_cons, List.map_cons, List.sum_cons]
      cases hlookup : repo.index.lookup chunk with
      | some l =>
          have hstep : checkChunk repo child f chunk = { f with
              total := f.total + l.entry.plainLength
              checking := { f.checking with
                blobsReferenced := f.checking.blobsReferenced + 1 } } := by
            simp only [checkChunk, hlookup]
          have hlength : chunkLength repo chunk = l.entry.plainLength := by
            rw [chunkLength, hlookup, Option.elim_some]
          obtain ⟨htotal, hcomplete, hseen, hprefix, hclean⟩ := @ih (checkChunk repo child f chunk)
          rw [hstep] at htotal hcomplete hseen hprefix hclean ⊢
          rw [List.forall_mem_cons, hlookup]
          refine ⟨by rw [htotal, hlength]; dsimp only; omega, ?_, hseen, hprefix, ?_⟩
          · simpa using hcomplete
          · simpa using hclean
      | none =>
          have hproblems : (checkChunk repo child f chunk).checking.problems =
              f.checking.problems ++
                [s!"file {child} references chunk {short chunk}, which no index lists"] := by
            simp only [checkChunk, hlookup, Checking.problem]
          have hfields : (checkChunk repo child f chunk).total = f.total ∧
              (checkChunk repo child f chunk).complete = false ∧
              (checkChunk repo child f chunk).checking.seen = f.checking.seen := by
            simp only [checkChunk, hlookup, Checking.problem, and_self]
          obtain ⟨htotal, hcomplete, hseen, hprefix, -⟩ := @ih (checkChunk repo child f chunk)
          rw [hfields.1] at htotal
          rw [hfields.2.1] at hcomplete
          rw [hfields.2.2] at hseen
          rw [hproblems] at hprefix
          have hlength : chunkLength repo chunk = 0 := by
            rw [chunkLength, hlookup, Option.elim_none]
          refine ⟨by rw [htotal, hlength]; omega, ?_, hseen, ?_, ?_⟩
          · rw [hcomplete, List.forall_mem_cons, hlookup]
            simp
          · exact (List.prefix_append _ _).trans hprefix
          · rw [List.forall_mem_cons, hlookup]
            refine iff_of_false (fun hsame => ?_) (by simp)
            have hlen := hprefix.length_le
            rw [hsame, List.length_append, List.length_singleton] at hlen
            omega

theorem checkFile_spec : (checkFile repo child node c).seen = c.seen ∧
    c.problems <+: (checkFile repo child node c).problems ∧
      ((checkFile repo child node c).problems = c.problems ↔ FileWhole repo node) := by
  obtain ⟨htotal, hcomplete, hseen, hprefix, hclean⟩ :=
    @checkChunks_spec repo child ⟨0, true, c⟩ node.content
  rw [Nat.zero_add] at htotal
  simp only [true_and] at hcomplete
  unfold checkFile
  dsimp only
  generalize node.content.foldl (checkChunk repo child) ⟨0, true, c⟩ = f at *
  split_ifs with hwrong
  · refine ⟨hseen, hprefix.trans (List.prefix_append _ _), iff_of_false (fun hsame => ?_) ?_⟩
    · have hlen := hprefix.length_le
      simp only [Checking.problem] at hsame
      rw [← hsame, List.length_append, List.length_singleton] at hlen
      omega
    · intro hwhole
      exact hwrong.2 (htotal.trans hwhole.size)
  · refine ⟨hseen, hprefix, hclean.trans ⟨fun hlisted => ⟨hlisted, ?_⟩, FileWhole.listed⟩⟩
    by_contra hsize
    exact hwrong ⟨hcomplete.mpr hlisted, fun heq => hsize (htotal.symm.trans heq)⟩

end Files

section Trees

variable {repo : Repository} {fuel : ℕ} {id treeId : ObjectId} {path : String}
  {c c' c'' : Checking} {nodes : List TreeFormat.Node} {tree : Tree}
  {descend : ObjectId → String → Checking → Option Checking}

/-- What the tree at `id` has beneath it. -/
def Subtree (repo : Repository) (id below : ObjectId) : Prop :=
  ∃ tree, (repo.loadTree id).result = .ok tree ∧
    ∃ n ∈ tree.nodes, n.nodeType = .dir ∧ n.subtree = some below

def TreeWhole (repo : Repository) (id : ObjectId) : Prop :=
  ∃ tree, (repo.loadTree id).result = .ok tree ∧
    ∀ n ∈ tree.nodes, n.nodeType = .file → FileWhole repo n

/-- What a part of the walk does: if it finds no problem, all that it has seen is whole. -/
structure Checks (repo : Repository) (c c' : Checking) : Prop where
  grows : ∀ x ∈ c.seen, x ∈ c'.seen
  problems : c.problems <+: c'.problems
  explored : c'.problems = c.problems → Explored (Subtree repo) (TreeWhole repo) c.seen c'.seen

theorem Checks.refl : Checks repo c c := ⟨fun _ hx => hx, List.prefix_rfl, fun _ => .refl⟩

theorem Checks.clean (h : Checks repo c c') (h' : Checks repo c' c'') :
    c''.problems = c.problems ↔ c'.problems = c.problems ∧ c''.problems = c'.problems := by
  constructor
  · intro hsame
    have hback : c'.problems <+: c.problems := hsame ▸ h'.problems
    have hmid : c'.problems = c.problems := hback.eq_of_length_le h.problems.length_le
    exact ⟨hmid, hsame.trans hmid.symm⟩
  · exact fun hboth => hboth.2.trans hboth.1

theorem Checks.trans (h : Checks repo c c') (h' : Checks repo c' c'') : Checks repo c c'' where
  grows x hx := h'.grows x (h.grows x hx)
  problems := h.problems.trans h'.problems
  explored hsame := by
    obtain ⟨hfirst, hthen⟩ := (h.clean h').mp hsame
    exact (h.explored hfirst).trans (h'.explored hthen)

theorem checkFile_checks {child : String} {node : TreeFormat.Node} :
    Checks repo c (checkFile repo child node c) := by
  obtain ⟨hseen, hprefix, -⟩ := @checkFile_spec repo child node c
  exact ⟨fun x hx => hseen ▸ hx, hprefix, fun _ => hseen ▸ .refl⟩

theorem checkNodes_checks
    (hdescend : ∀ id path c c', descend id path c = some c' → Checks repo c c' ∧ id ∈ c'.seen)
    (h : checkNodes repo descend path nodes c = some c') :
    Checks repo c c' ∧
      (∀ n ∈ nodes, n.nodeType = .dir → ∀ below, n.subtree = some below → below ∈ c'.seen) ∧
      (c'.problems = c.problems → ∀ n ∈ nodes, n.nodeType = .file → FileWhole repo n) := by
  induction nodes generalizing c with
  | nil =>
      cases h
      exact ⟨.refl, by simp, by simp⟩
  | cons node rest ih =>
      rw [checkNodes] at h
      simp only [List.forall_mem_cons]
      cases htype : node.nodeType with
      | dir =>
          simp only [htype] at h
          cases hsubtree : node.subtree with
          | none => simp only [hsubtree, reduceCtorEq] at h
          | some below =>
              simp only [hsubtree] at h
              obtain ⟨between, hbelow, hrest⟩ := Option.bind_eq_some_iff.mp h
              obtain ⟨hfirst, hseen⟩ := hdescend _ _ _ _ hbelow
              obtain ⟨hchecks, hdirs, hfiles⟩ := ih hrest
              refine ⟨hfirst.trans hchecks, ⟨fun _ id hid => ?_, hdirs⟩, fun hsame => ⟨?_, ?_⟩⟩
              · cases hid
                exact hchecks.grows below hseen
              · intro hfile
                cases hfile
              · exact hfiles ((hfirst.clean hchecks).mp hsame).2
      | file =>
          simp only [htype] at h
          obtain ⟨hchecks, hdirs, hfiles⟩ := ih h
          refine ⟨checkFile_checks.trans hchecks, ⟨fun hdir => ?_, hdirs⟩, fun hsame => ⟨?_, ?_⟩⟩
          · cases hdir
          · intro _
            exact checkFile_spec.2.2.mp ((checkFile_checks.clean hchecks).mp hsame).1
          · exact hfiles ((checkFile_checks.clean hchecks).mp hsame).2
      | symlink =>
          simp only [htype] at h
          obtain ⟨hchecks, hdirs, hfiles⟩ := ih h
          refine ⟨hchecks, ⟨fun hdir => ?_, hdirs⟩, fun hsame => ⟨fun hfile => ?_, hfiles hsame⟩⟩
          · cases hdir
          · cases hfile

theorem checkTree_checks (h : checkTree repo fuel treeId path c = some c') :
    Checks repo c c' ∧ treeId ∈ c'.seen := by
  induction fuel generalizing treeId path c c' with
  | zero => cases h
  | succ fuel ih =>
      rw [checkTree] at h
      split_ifs at h with hseen
      · cases h
        exact ⟨.refl, hseen⟩
      · cases hload : (repo.loadTree treeId).result with
        | error failure =>
            rw [hload] at h
            cases failure with
            | panicked => cases h
            | error e =>
                cases h
                refine ⟨⟨fun x hx => List.mem_append_left _ hx, List.prefix_append _ _, ?_⟩, ?_⟩
                · intro hsame
                  have hlen := congrArg List.length hsame
                  simp [Checking.problem] at hlen
                · simp [Checking.problem]
        | ok tree =>
            rw [hload] at h
            obtain ⟨hchecks, hdirs, hfiles⟩ := checkNodes_checks (fun _ _ _ _ hsome => ih hsome) h
            have hnow : treeId ∈ c'.seen := hchecks.grows treeId (by simp)
            refine ⟨⟨fun x hx => hchecks.grows x (by simp [hx]), hchecks.problems, ?_⟩, hnow⟩
            intro hsame
            refine Explored.visit ⟨tree, hload, hfiles hsame⟩ (hchecks.explored hsame) ?_
            rintro below ⟨other, hother, n, hn, hdir, hsubtree⟩
            cases hload.symm.trans hother
            exact hdirs n hn hdir below hsubtree

theorem checkNodes_clean
    (hbelow : ∀ n ∈ nodes, n.nodeType = .dir → ∀ below, n.subtree = some below →
      ∀ path c c', descend below path c = some c' → c'.problems = c.problems)
    (hfiles : ∀ n ∈ nodes, n.nodeType = .file → FileWhole repo n)
    (h : checkNodes repo descend path nodes c = some c') : c'.problems = c.problems := by
  induction nodes generalizing c with
  | nil =>
      cases h
      rfl
  | cons node rest ih =>
      obtain ⟨hnode, hothers⟩ := List.forall_mem_cons.mp hbelow
      obtain ⟨hfile, hrest⟩ := List.forall_mem_cons.mp hfiles
      rw [checkNodes] at h
      cases htype : node.nodeType with
      | dir =>
          simp only [htype] at h
          cases hsubtree : node.subtree with
          | none => simp only [hsubtree, reduceCtorEq] at h
          | some below =>
              simp only [hsubtree] at h
              obtain ⟨between, hfirst, hlater⟩ := Option.bind_eq_some_iff.mp h
              exact (ih hothers hrest hlater).trans (hnode htype below hsubtree _ _ _ hfirst)
      | file =>
          simp only [htype] at h
          exact (ih hothers hrest h).trans (checkFile_spec.2.2.mpr (hfile htype))
      | symlink =>
          simp only [htype] at h
          exact ih hothers hrest h

theorem checkTree_clean
    (hwhole : ∀ below, Relation.ReflTransGen (Subtree repo) treeId below → TreeWhole repo below)
    (h : checkTree repo fuel treeId path c = some c') : c'.problems = c.problems := by
  induction fuel generalizing treeId path c c' with
  | zero => cases h
  | succ fuel ih =>
      rw [checkTree] at h
      split_ifs at h with hseen
      · cases h
        rfl
      · obtain ⟨tree, hload, hfiles⟩ := hwhole treeId .refl
        simp only [hload] at h
        refine (checkNodes_clean ?_ hfiles h).trans rfl
        intro n hn hdir below hsubtree path c c' hsome
        refine ih (fun deeper hdeeper => hwhole deeper ?_) hsome
        exact .head ⟨tree, hload, n, hn, hdir, hsubtree⟩ hdeeper

theorem checkNodes_total (seen : List ObjectId)
    (hdescend : ∀ id path c, (∀ x ∈ seen, x ∈ c.seen) → ∃ c', descend id path c = some c')
    (hgrows : ∀ id path c c', descend id path c = some c' → ∀ x ∈ c.seen, x ∈ c'.seen)
    (hvalid : ∀ n ∈ nodes, n.Valid) (hseen : ∀ x ∈ seen, x ∈ c.seen) :
    ∃ c', checkNodes repo descend path nodes c = some c' := by
  induction nodes generalizing c with
  | nil => exact ⟨c, rfl⟩
  | cons node rest ih =>
      obtain ⟨hnode, hrest⟩ := List.forall_mem_cons.mp hvalid
      rw [checkNodes]
      cases htype : node.nodeType with
      | dir =>
          obtain ⟨below, hsubtree⟩ := Option.isSome_iff_exists.mp (hnode.dir htype)
          obtain ⟨between, hbelow⟩ := hdescend below (path ++ node.name ++ "/") c hseen
          simp only [hsubtree, hbelow, Option.bind_some]
          exact ih hrest fun x hx => hgrows _ _ _ _ hbelow x (hseen x hx)
      | file =>
          refine ih hrest fun x hx => ?_
          rw [checkFile_spec.1]
          exact hseen x hx
      | symlink => exact ih hrest hseen

theorem checkTree_total
    (hfuel : unseen (repo.index.blobs.keys ++ repo.cache.keys) c.seen < fuel) :
    ∃ c', checkTree repo fuel treeId path c = some c' := by
  induction fuel generalizing treeId path c with
  | zero => exact absurd hfuel (Nat.not_lt_zero _)
  | succ fuel ih =>
      rw [checkTree]
      split_ifs with hseen
      · exact ⟨c, rfl⟩
      · cases hload : (repo.loadTree treeId).result with
        | error failure =>
            cases failure with
            | panicked => exact absurd hload loadTree_unbroken
            | error e => exact ⟨_, rfl⟩
        | ok tree =>
            have hless := unseen_visit (loadTree_known hload) hseen
            refine checkNodes_total (c.seen ++ [treeId]) ?_ ?_ (loadTree_canonical hload).valid
              fun x hx => hx
            · intro below path c' hgrown
              have hmono : unseen (repo.index.blobs.keys ++ repo.cache.keys) c'.seen ≤
                  unseen (repo.index.blobs.keys ++ repo.cache.keys) (c.seen ++ [treeId]) :=
                unseen_mono hgrown
              exact ih (by omega)
            · exact fun _ _ _ _ hsome => (checkTree_checks hsome).1.grows

theorem checkSnapshots_spec (snapshots : List (ObjectId × StoredSnapshot)) :
    ∃ c', checkSnapshots repo snapshots c = some c' ∧ Checks repo c c' ∧
      (∀ s ∈ snapshots, s.2.tree ∈ c'.seen) ∧
      ((∀ s ∈ snapshots, ∀ below, Relation.ReflTransGen (Subtree repo) s.2.tree below →
        TreeWhole repo below) → c'.problems = c.problems) := by
  unfold checkSnapshots
  induction snapshots generalizing c with
  | nil => exact ⟨c, rfl, .refl, by simp, by simp⟩
  | cons s rest ih =>
      have hfuel : unseen (repo.index.blobs.keys ++ repo.cache.keys) c.seen < Verify.fuel repo := by
        have hle : unseen (repo.index.blobs.keys ++ repo.cache.keys) c.seen ≤ _ := unseen_le_length
        rw [List.length_append, Std.ExtTreeMap.length_keys, Std.ExtTreeMap.length_keys] at hle
        unfold Verify.fuel
        omega
      obtain ⟨between, hfirst⟩ := @checkTree_total repo _ s.2.tree "/" c hfuel
      obtain ⟨hchecks, hseen⟩ := checkTree_checks hfirst
      obtain ⟨c', hrest, hlater, hroots, hclean⟩ := @ih between
      refine ⟨c', ?_, hchecks.trans hlater, ?_, fun hwhole => ?_⟩
      · rw [List.foldlM_cons, hfirst]
        exact hrest
      · exact List.forall_mem_cons.mpr ⟨hlater.grows _ hseen, hroots⟩
      · obtain ⟨hnow, hthen⟩ := List.forall_mem_cons.mp hwhole
        exact (hclean hthen).trans (checkTree_clean hnow hfirst)

end Trees

section Packs

variable {repo : Repository} {packId : ObjectId} {data : List StoredByte} {header : List Entry}

/-- The header of a pack agrees with the index, and its blobs open. -/
def PackSound (repo : Repository) (packId : ObjectId) (data : List StoredByte) : Prop :=
  ∃ header, (parseHeader repo.keys packId data).result = .ok header ∧
    (∀ want ∈ indexed repo packId, want ∈ header ∧ ∀ e ∈ header, e.id = want.id → e = want) ∧
    ∀ e ∈ header, ∃ plaintext, Decodes repo e data plaintext

theorem decodeAll_spec (hends : ∀ e ∈ header, e.end ≤ data.length) :
    ∃ problems, decodeAll repo packId data header = some problems ∧
      (problems = [] ↔ ∀ e ∈ header, ∃ plaintext, Decodes repo e data plaintext) := by
  induction header with
  | nil => exact ⟨[], rfl, by simp⟩
  | cons e rest ih =>
      obtain ⟨hend, hothers⟩ := List.forall_mem_cons.mp hends
      obtain ⟨problems, hproblems, hclean⟩ := ih hothers
      have hslice : (Metered.slice data e.offset e.end : Metered ReadError _) = pure (cut e data) := by
        unfold Metered.slice cut Entry.end
        rw [if_pos ⟨Nat.le_add_right _ _, hend⟩, List.take_drop]
      rw [decodeAll, hslice, Metered.pure_bind]
      rw [List.forall_mem_cons]
      cases hread : ((PackFormat.decodeBlob repo.keys repo.zstd e (cut e data)).mapError
        ReadError.ofPack).result with
      | ok plaintext =>
          refine ⟨problems, hproblems, hclean.trans ⟨fun h => ⟨⟨plaintext, ?_⟩, h⟩, And.right⟩⟩
          exact Metered.mapError_eq_ok.mp hread
      | error failure =>
          cases failure with
          | panicked =>
              exact absurd hread (Metered.Unbroken.mapError decodeBlob_within.unbroken)
          | error e' =>
              refine ⟨_, by rw [hproblems]; rfl, iff_of_false (by simp) ?_⟩
              rintro ⟨⟨plaintext, hopens⟩, -⟩
              rw [Metered.mapError_eq_ok.mpr hopens] at hread
              cases hread

theorem mismatched_eq_nil : mismatched repo packId header = [] ↔
    ∀ want ∈ indexed repo packId, ∀ e ∈ header, e.id = want.id → e = want := by
  unfold mismatched
  rw [List.map_eq_nil_iff, List.filter_eq_nil_iff]
  constructor
  · intro h want hwant e he hid
    by_contra hne
    refine h e he (List.any_eq_true.mpr ⟨want, hwant, ?_⟩)
    simp [hid, Ne.symm hne]
  · intro h e he hany
    obtain ⟨want, hwant, hboth⟩ := List.any_eq_true.mp hany
    simp only [Bool.and_eq_true, decide_eq_true_eq] at hboth
    exact hboth.2 (h want hwant e he hboth.1.symm).symm

theorem notContained_eq_nil : notContained repo packId header = [] ↔
    ∀ want ∈ indexed repo packId, want.id ∈ header.map Entry.id := by
  unfold notContained
  rw [List.map_eq_nil_iff, List.filter_eq_nil_iff]
  simp only [decide_eq_true_eq, not_not]

theorem verifyPack_spec (packId : ObjectId) (data : List StoredByte) :
    ∃ problems, verifyPack repo packId data = some problems ∧
      (problems = [] ↔ PackSound repo packId data) := by
  unfold verifyPack PackSound
  cases hparse : (parseHeader repo.keys packId data).result with
  | error failure =>
      cases failure with
      | panicked => exact absurd hparse parseHeader_unbroken
      | error e => exact ⟨_, rfl, iff_of_false (by simp) (by rintro ⟨header, ⟨⟩, -⟩)⟩
  | ok header =>
      obtain ⟨broken, hbroken, hclean⟩ := @decodeAll_spec repo packId data header (parseHeader_ends hparse)
      refine ⟨_, by dsimp only; rw [hbroken, Option.map_some], ?_⟩
      rw [List.append_eq_nil_iff, List.append_eq_nil_iff, hclean, mismatched_eq_nil,
        notContained_eq_nil]
      constructor
      · rintro ⟨⟨hsame, hin⟩, hopens⟩
        refine ⟨header, rfl, fun want hwant => ⟨?_, hsame want hwant⟩, hopens⟩
        obtain ⟨e, he, hid⟩ := List.mem_map.mp (hin want hwant)
        exact hsame want hwant e he hid ▸ he
      · rintro ⟨_, ⟨⟩, hindexed, hopens⟩
        refine ⟨⟨fun want hwant => (hindexed want hwant).2, fun want hwant => ?_⟩, hopens⟩
        exact List.mem_map_of_mem (hindexed want hwant).1

theorem mapM_flatten_spec {α β : Type} {f : α → Option (List β)} {P : α → Prop}
    (hf : ∀ a, ∃ r, f a = some r ∧ (r = [] ↔ P a)) (l : List α) :
    ∃ rs, l.mapM f = some rs ∧ (rs.flatten = [] ↔ ∀ a ∈ l, P a) := by
  induction l with
  | nil => exact ⟨[], rfl, by simp⟩
  | cons a l ih =>
      obtain ⟨r, hr, hP⟩ := hf a
      obtain ⟨rs, hrs, hall⟩ := ih
      refine ⟨r :: rs, ?_, ?_⟩
      · rw [List.mapM_cons, hr, hrs]
        rfl
      · rw [List.flatten_cons, List.append_eq_nil_iff, hP, hall, List.forall_mem_cons]

theorem readAllPacks_spec (repo : Repository) : ∃ problems, readAllPacks repo = some problems ∧
    (problems = [] ↔ ∀ (id : ObjectId) (data : List StoredByte),
      repo.packs[id]? = some data → PackSound repo id data) := by
  obtain ⟨rs, hrs, hall⟩ := mapM_flatten_spec
    (f := fun (pack : ObjectId × List StoredByte) => verifyPack repo pack.1 pack.2)
    (P := fun pack => PackSound repo pack.1 pack.2)
    (fun pack => verifyPack_spec pack.1 pack.2) repo.packs.toList
  refine ⟨sortByKey id rs.flatten, ?_, ?_⟩
  · unfold readAllPacks
    rw [hrs, Option.map_some]
  · have hperm : (sortByKey id rs.flatten).Perm rs.flatten := sortByKey_perm
    have hnil : sortByKey id rs.flatten = [] ↔ rs.flatten = [] := by
      rw [← List.length_eq_zero_iff, ← List.length_eq_zero_iff, hperm.length_eq]
    rw [hnil, hall, Prod.forall]
    simp only [Std.ExtTreeMap.mem_toList_iff_getElem?_eq_some]

end Packs

section Reports

variable {repo : Repository} {options : Options} {snapshots : List (ObjectId × StoredSnapshot)}

/-- What the snapshots need is there, as far as listings and trees tell. -/
structure Whole (repo : Repository) (snapshots : List (ObjectId × StoredSnapshot)) : Prop where
  stored : ∀ id ∈ repo.index.packIds, id ∈ repo.packs
  within : ∀ l ∈ repo.index.locations, ∀ data, repo.packs[l.packId]? = some data →
    l.entry.end ≤ data.length
  trees : ∀ s ∈ snapshots, ∀ below, Relation.ReflTransGen (Subtree repo) s.2.tree below →
    TreeWhole repo below

theorem missingPacks_eq_nil : missingPacks repo = [] ↔ ∀ id ∈ repo.index.packIds, id ∈ repo.packs := by
  unfold missingPacks
  rw [List.map_eq_nil_iff, List.filter_eq_nil_iff]
  simp only [Bool.not_eq_true, Bool.not_eq_false', Std.ExtTreeMap.contains_iff_mem]

theorem overlongEntries_eq_nil : overlongEntries repo = [] ↔ ∀ l ∈ repo.index.locations,
    ∀ data, repo.packs[l.packId]? = some data → l.entry.end ≤ data.length := by
  unfold overlongEntries
  rw [List.filterMap_eq_nil_iff]
  refine forall₂_congr fun l _ => ?_
  rw [Option.map_eq_none_iff, overlong]
  cases repo.packs[l.packId]? with
  | none => simp
  | some data => simp

theorem readData_spec (repo : Repository) (options : Options) : ∃ broken,
    (if options.readData then readAllPacks repo else some []) = some broken ∧
      (broken = [] ↔ (options.readData = true → ∀ (id : ObjectId) (data : List StoredByte),
        repo.packs[id]? = some data → PackSound repo id data)) := by
  cases options.readData with
  | false => exact ⟨[], rfl, by simp⟩
  | true =>
      obtain ⟨problems, hproblems, hall⟩ := readAllPacks_spec repo
      exact ⟨problems, hproblems, hall.trans (by simp)⟩

section Options

variable (hlisted : options.snapshots.elim repo.listSnapshots .ok = .ok snapshots)

include hlisted

theorem verify_returns : ∃ report, verify repo options = some (.ok report) := by
  obtain ⟨c, hc, -⟩ := @checkSnapshots_spec repo ⟨[], 0, missingPacks repo ++ overlongEntries repo⟩
    snapshots
  obtain ⟨broken, hbroken, -⟩ := readData_spec repo options
  unfold verify
  rw [hlisted]
  dsimp only
  rw [hc, Option.bind_some, hbroken]
  exact ⟨_, rfl⟩

theorem report_clean {report : Report} (h : verify repo options = some (.ok report)) :
    report.ok = true ↔ Whole repo snapshots ∧ (options.readData = true →
      ∀ (id : ObjectId) (data : List StoredByte), repo.packs[id]? = some data →
        PackSound repo id data) := by
  obtain ⟨c, hc, hchecks, hroots, hclean⟩ := @checkSnapshots_spec repo
    ⟨[], 0, missingPacks repo ++ overlongEntries repo⟩ snapshots
  obtain ⟨broken, hbroken, hsound⟩ := readData_spec repo options
  unfold verify at h
  rw [hlisted] at h
  dsimp only at h
  rw [hc, Option.bind_some, hbroken] at h
  cases h
  rw [Report.ok, List.isEmpty_iff]
  dsimp only
  rw [List.append_eq_nil_iff, hsound]
  refine and_congr_left fun _ => ?_
  constructor
  · intro hnone
    have hprefix := hchecks.problems
    rw [hnone] at hprefix
    have hfirst := List.prefix_nil.mp hprefix
    obtain ⟨hmissing, hoverlong⟩ := List.append_eq_nil_iff.mp hfirst
    refine ⟨missingPacks_eq_nil.mp hmissing, overlongEntries_eq_nil.mp hoverlong, ?_⟩
    intro s hs below hbelow
    exact ((hchecks.explored (hnone.trans hfirst.symm)).reaches (hroots s hs) hbelow).2
  · intro hwhole
    rw [hclean hwhole.trees]
    dsimp only
    rw [missingPacks_eq_nil.mpr hwhole.stored, overlongEntries_eq_nil.mpr hwhole.within]
    rfl

end Options

section Loads

variable {repo : Repository} {snapshots : List (ObjectId × StoredSnapshot)} {chunk : ObjectId}
  {l : Location}

theorem Whole.loads (h : Whole repo snapshots)
    (hsound : ∀ (id : ObjectId) (data : List StoredByte), repo.packs[id]? = some data →
      PackSound repo id data)
    (hl : repo.index.lookup chunk = some l) :
    ∃ piece, (repo.loadBlob chunk).result = .ok piece := by
  have hlisted : l ∈ repo.index.locations := by
    rw [Index.mem_locations repo.opened, (Index.read_lookup repo.opened hl).1]
    exact hl
  obtain ⟨data, hdata⟩ : ∃ data, repo.packs[l.packId]? = some data := by
    have hmem := h.stored l.packId (Std.ExtTreeMap.mem_keys.mpr (Index.filed_read repo.opened _ _ hl))
    rw [Std.ExtTreeMap.mem_iff_isSome_getElem?] at hmem
    exact Option.isSome_iff_exists.mp hmem
  obtain ⟨header, -, hagrees, hopens⟩ := hsound l.packId data hdata
  have hwant : l.entry ∈ indexed repo l.packId :=
    List.mem_map.mpr ⟨l, List.mem_filter.mpr ⟨hlisted, decide_eq_true rfl⟩, rfl⟩
  obtain ⟨piece, hpiece⟩ := hopens l.entry (hagrees l.entry hwant).1
  exact ⟨piece, loadBlob_eq_ok.mpr ⟨l, data, hl, hdata, h.within l hlisted data hdata, hpiece⟩⟩

end Loads

/-- What `verify` reports is no problem exactly if the repository is whole: every pack that the index
lists is stored and long enough, the trees beneath every snapshot load, and their files' chunks are
listed and add up; and, if the data is read, every stored pack has a header that agrees with the index
and blobs that open to what their ids name. It never panics. -/
theorem verify_clean_iff
    (hlisted : options.snapshots.elim repo.listSnapshots .ok = .ok snapshots) :
    ∃ report, verify repo options = some (.ok report) ∧
      (report.ok = true ↔ Whole repo snapshots ∧ (options.readData = true →
        ∀ (id : ObjectId) (data : List StoredByte), repo.packs[id]? = some data →
          PackSound repo id data)) := by
  obtain ⟨report, hreport⟩ := verify_returns hlisted
  exact ⟨report, hreport, report_clean hlisted hreport⟩

section Stored

def linkAndChunk : List TreeFormat.Node :=
  linkAndFile.map fun n => if n.nodeType = .file then { n with size := 2, content := [7] } else n

/-- What `serde_json` makes of the link and a file of one chunk. -/
def linkAndChunkJson : List UInt8 :=
  ("\x7b\"nodes\":[\x7b\"name\":\"a\",\"type\":\"symlink\",\"mode\":511,\"uid\":0,\"gid\":0," ++
    "\"mtime\":\"1970-01-01T00:00:00Z\",\"link_target\":\"b\"\x7d,\x7b\"name\":\"b\",\"type\":\"file\"," ++
    "\"mode\":420,\"uid\":0,\"gid\":0,\"size\":2,\"mtime\":\"1970-01-01T00:00:00Z\",\"content\":[\"" ++
    hashText 7 ++ "\"]\x7d]\x7d").toUTF8.toList

def linkAndChunkSerde : TreeSerde where
  toVec := fun tree => if tree = .new linkAndChunk then linkAndChunkJson else []
  fromSlice := fun data =>
    if data = linkAndChunkJson then .ok (.new linkAndChunk)
    else .error "EOF while parsing a value at line 1 column 0"
  debug := fun name => s!"\"{name}\""

theorem linkAndChunk_decodes :
    Tree.decode linkAndChunkSerde linkAndChunkJson = .ok (.new linkAndChunk) := by
  have hvalid : ∀ n ∈ linkAndChunk, n.Valid := by
    intro n hn
    rw [Node.valid_iff]
    revert n
    decide
  refine decode_eq_ok.mpr ⟨?_, canonical_new hvalid (by decide)⟩
  dsimp only [linkAndChunkSerde]
  rw [if_pos rfl]

theorem length_linkAndChunkJson : linkAndChunkJson.length < 2 ^ 16 := by decide +kernel

theorem linkAndChunkJson_ne : linkAndChunkJson ≠ [1, 2] := by decide +kernel

def storedPack : PackEntries := ⟨1, twoEntries linkAndChunkJson.length⟩

/-- A snapshot's tree and its file's chunk are in a pack, which the index lists. -/
def storedTree (data : List StoredByte) : Repository where
  keys := threeIds linkAndChunkJson
  zstd := asIs
  serde := linkAndChunkSerde
  packs := (∅ : IdMap (List StoredByte)).insert 1 data
  indexes := (∅ : IdMap (Except BackupError (List PackEntries))).insert 3 (.ok [storedPack])
  snapshots := ∅
  index := Index.new.addObject (3, [storedPack])
  opened := by
    unfold Index.read
    rw [readObjects_singleton]
    rfl
  fetchError := fun _ => "Failed to fetch the pack"
  cache := ∅

structure Packed (data : List StoredByte) : Prop where
  header : (parseHeader (threeIds linkAndChunkJson) 1 data).result = .ok storedPack.entries
  ends : ∀ e ∈ storedPack.entries, e.end ≤ data.length
  opens : ∀ e ∈ storedPack.entries, ∃ plaintext, Decodes (storedTree data) e data plaintext

theorem exists_packed : ∃ data, Packed data := by
  obtain ⟨w, hrun, hsize, hid, hentries⟩ := two_blobs_run length_linkAndChunkJson
  obtain ⟨hlaid, -⟩ := (@laid_new (threeIds linkAndChunkJson) asIs (fun _ _ => True) 1 .none).runAll
    asIs_roundTrips (fun op hop => (two_blobs_carry linkAndChunkJson_ne op hop).imp fun _ h => ⟨h, trivial⟩)
    hrun hsize
  obtain ⟨pack, -, hsame, hall, hparse, hopens⟩ := hlaid.pack zeroNonce
    (by rw [hentries]; exact List.cons_ne_nil _ _) (by rw [hentries]; exact (by decide))
  rw [hsame, hid, hall, hentries] at hparse
  rw [hall, hentries] at hopens
  refine ⟨pack.data, hparse, fun e he => (hopens e he).1, fun e he => ?_⟩
  obtain ⟨plaintext, -, hplaintext⟩ := (hopens e he).2
  exact ⟨plaintext, hplaintext⟩

variable {data : List StoredByte} {l : Location} {id : ObjectId}

theorem storedTree_lookup : (storedTree data).index.lookup id =
    storedPack.locations.find? fun l => l.entry.id = id := by
  have hread := @Index.lookup_read id [(3, [storedPack])]
  rw [List.flatMap_singleton, List.flatMap_singleton] at hread
  exact hread

theorem storedTree_locations (hl : l ∈ (storedTree data).index.locations) :
    l.packId = 1 ∧ l.entry ∈ storedPack.entries := by
  rw [Index.mem_locations (storedTree data).opened, storedTree_lookup] at hl
  obtain ⟨e, he, rfl⟩ := List.mem_map.mp (List.mem_of_find?_eq_some hl)
  exact ⟨rfl, he⟩

theorem storedTree_pack {other : List StoredByte} (h : (storedTree data).packs[id]? = some other) :
    id = 1 ∧ other = data := by
  unfold storedTree at h
  dsimp only at h
  rw [IdMap.getElem?_insert] at h
  split_ifs at h with hid
  · exact ⟨hid.symm, (Option.some.inj h).symm⟩
  · cases h

theorem Packed.loads (h : Packed data) :
    ((storedTree data).loadTree 8).result = .ok (.new linkAndChunk) := by
  have hmem : (⟨.tree, .none, 8, 37, ciphertextLen linkAndChunkJson.length,
      linkAndChunkJson.length⟩ : Entry) ∈ storedPack.entries := List.mem_cons_of_mem _ List.mem_cons_self
  obtain ⟨plaintext, hplaintext⟩ := h.opens _ hmem
  obtain ⟨-, _, -, -, hid⟩ := decodeBlob_eq_ok.mp hplaintext
  obtain rfl := eq_of_eight hid
  have hpack : (storedTree data).packs[(1 : ObjectId)]? = some data := by simp [storedTree]
  have hblob : ((storedTree data).loadBlob 8).result = .ok linkAndChunkJson :=
    loadBlob_eq_ok.mpr ⟨⟨1, _⟩, data, storedTree_lookup.trans rfl, hpack, h.ends _ hmem, hplaintext⟩
  have hbytes : (storedTree data).treeBytes 8 = (storedTree data).loadBlob 8 := by
    simp [Repository.treeBytes, storedTree]
  rw [loadTree_eq_ok, hbytes]
  exact ⟨_, hblob, linkAndChunk_decodes⟩

theorem Packed.whole (h : Packed data) : Whole (storedTree data) [(9, ⟨0, 8⟩)] ∧ (true = true →
    ∀ (id : ObjectId) (other : List StoredByte), (storedTree data).packs[id]? = some other →
      PackSound (storedTree data) id other) := by
  refine ⟨⟨?_, ?_, ?_⟩, ?_⟩
  · intro id hid
    have hone : 1 = id := by
      simpa [storedTree, Index.packIds, Index.addObject, Index.addPack, Index.new, storedPack]
        using hid
    subst hone
    simp [storedTree]
  · intro l hl other hother
    obtain ⟨hpack, hentry⟩ := storedTree_locations hl
    obtain ⟨-, rfl⟩ := storedTree_pack hother
    exact h.ends _ hentry
  · intro s hs below hbelow
    rw [List.mem_singleton.mp hs] at hbelow
    have hflat : ∀ n ∈ (Tree.new linkAndChunk).nodes, n.nodeType ≠ .dir := by decide
    obtain rfl | ⟨between, ⟨tree, htree, n, hn, hdir, -⟩, -⟩ := Relation.ReflTransGen.cases_head hbelow
    · refine ⟨_, h.loads, fun n hn hfile => ?_⟩
      have hchunk : n.content = [7] ∧ n.size = 2 := by
        revert n
        decide
      refine ⟨fun chunk hmem => ?_, ?_⟩
      · rw [hchunk.1, List.mem_singleton] at hmem
        rw [hmem, storedTree_lookup]
        rfl
      · rw [hchunk.1, hchunk.2, List.map_singleton, List.sum_singleton, chunkLength, storedTree_lookup]
        rfl
    · cases h.loads.symm.trans htree
      exact absurd hdir (hflat n hn)
  · intro _ id other hother
    obtain ⟨rfl, rfl⟩ := storedTree_pack hother
    refine ⟨_, h.header, fun want hwant => ?_, h.opens⟩
    obtain ⟨l, hl, rfl⟩ := List.mem_map.mp hwant
    obtain ⟨-, hentry⟩ := storedTree_locations (List.mem_of_mem_filter hl)
    refine ⟨hentry, fun e he hsame => ?_⟩
    have hids : (storedPack.entries.map Entry.id).Nodup := by decide
    exact List.inj_on_of_nodup_map hids he hentry hsame

end Stored

theorem verify_clean_iff_stored : ∃ data report, Packed data ∧
    verify (storedTree data) ⟨true, some [(9, ⟨0, 8⟩)]⟩ = some (.ok report) ∧ report.ok = true := by
  obtain ⟨data, hpacked⟩ := exists_packed
  obtain ⟨report, hreport, hclean⟩ :=
    @verify_clean_iff (storedTree data) ⟨true, some [(9, ⟨0, 8⟩)]⟩ _ rfl
  exact ⟨data, report, hpacked, hreport, hclean.mpr hpacked.whole⟩

end Reports

end FileMirror.Verify
