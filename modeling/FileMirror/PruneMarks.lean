import FileMirror.IndexListings

set_option autoImplicit false

namespace FileMirror.Prune

section Purpose

variable (codec : BlobCodec)

inductive TreeBeneath (root : ObjectId) : ObjectId → Prop where
  | here : TreeBeneath root root
  | step {tree subtree : ObjectId} {nodes : List TreeNode} (h : TreeBeneath root tree)
      (hnodes : codec.treeOf tree = .ok nodes) (hmem : .dir subtree ∈ nodes) :
      TreeBeneath root subtree

def ChunkBeneath (root b : ObjectId) : Prop :=
  ∃ tree nodes content, TreeBeneath codec root tree ∧ codec.treeOf tree = .ok nodes ∧
    .file content ∈ nodes ∧ b ∈ content

def Needed (store : PruneStore) (forget : List ObjectId) (b : ObjectId) : Prop :=
  ∃ (id : ObjectId) (s : StoredSnapshot), store.snapshots[id]? = some (.ok s) ∧ id ∉ forget ∧
    (TreeBeneath codec s.tree b ∨ ChunkBeneath codec s.tree b)

/-- No file that a remaining snapshot reaches has a chunk with the id of a tree that one reaches. -/
def Apart (store : PruneStore) (forget : List ObjectId) : Prop :=
  ∀ (id other : ObjectId) (s s' : StoredSnapshot) (b : ObjectId),
    store.snapshots[id]? = some (.ok s) → id ∉ forget →
    store.snapshots[other]? = some (.ok s') → other ∉ forget →
    ChunkBeneath codec s.tree b → ¬ TreeBeneath codec s'.tree b

/-- Everything opens that is read before the first change, the snapshots to forget are there, and the
walk of the others marks blobs that are listed. -/
structure Examined (store : PruneStore) (forget : List ObjectId) (ix : Index)
    (referenced : List ObjectId) : Prop where
  index : Index.read store.indexes = .ok ix
  marked : ∃ snapshots, listSnapshots store = .ok snapshots ∧
    (∀ id ∈ forget, id ∈ snapshots.map Prod.fst) ∧
    markAll codec store.packs ix (snapshots.filter fun s => s.1 ∉ forget) = .ok referenced
  listed : ∀ id ∈ referenced, ix.has id = true

end Purpose

variable {codec : BlobCodec} {packs : IdMap StoredPack} {ix : Index} {fuel : ℕ}
  {R R' R'' : List ObjectId} {tree id : ObjectId}

theorem mem_insert : id ∈ insert R tree ↔ id ∈ R ∨ id = tree := by
  unfold insert
  split_ifs with hmem
  · constructor
    · exact .inl
    · rintro (h | rfl)
      · exact h
      · exact hmem
  · simp

theorem mem_insertAll (content : List ObjectId) :
    id ∈ content.foldl insert R ↔ id ∈ R ∨ id ∈ content := by
  induction content generalizing R with
  | nil => simp
  | cons chunk content ih => rw [List.foldl_cons, ih, mem_insert, List.mem_cons, or_assoc]

section Fuel

def left (ix : Index) (R : List ObjectId) : ℕ := ix.blobs.keys.countP fun id => id ∉ R

theorem left_le (h : ∀ x ∈ R, x ∈ R') : left ix R' ≤ left ix R := by
  refine List.countP_mono_left fun id _ hid => ?_
  rw [decide_eq_true_iff] at hid ⊢
  exact fun hR => hid (h id hR)

theorem countP_lt {l : List ObjectId} {p q : ObjectId → Bool} (himp : ∀ x ∈ l, p x → q x)
    (hid : id ∈ l) (hq : q id = true) (hp : ¬ p id = true) : l.countP p < l.countP q := by
  induction l with
  | nil => cases hid
  | cons x l ih =>
      obtain ⟨hx, hrest⟩ := List.forall_mem_cons.mp himp
      rw [List.countP_cons, List.countP_cons]
      obtain rfl | hid := List.mem_cons.mp hid
      · have hle : l.countP p ≤ l.countP q := List.countP_mono_left hrest
        rw [if_pos hq, if_neg hp]
        omega
      · have hlt := ih hrest hid
        by_cases hpx : p x = true
        · rw [if_pos hpx, if_pos (hx hpx)]
          omega
        · rw [if_neg hpx]
          omega

theorem left_lt {location : Location} (hlookup : ix.lookup tree = some location) (htree : tree ∉ R) :
    left ix (R ++ [tree]) < left ix R := by
  have hlisted : tree ∈ ix.blobs.keys :=
    Std.ExtTreeMap.mem_keys.mpr (IdMap.mem_of_getElem? hlookup)
  refine countP_lt ?_ hlisted (decide_eq_true htree) ?_
  · intro id _ hid
    rw [decide_eq_true_iff] at hid ⊢
    exact fun hR => hid (List.mem_append_left _ hR)
  · rw [decide_eq_true_iff]
    exact fun hnot => hnot (List.mem_append_right _ (List.mem_singleton_self _))

end Fuel

def markNode (walk : List ObjectId → ObjectId → Except BackupError (List ObjectId))
    (R : List ObjectId) : TreeNode → Except BackupError (List ObjectId)
  | .dir subtree => walk R subtree
  | .file content => .ok (content.foldl insert R)
  | .symlink => .ok R

theorem mark_cases (h : mark codec packs ix (fuel + 1) R tree = .ok R') :
    (tree ∈ R ∧ R' = R) ∨ ∃ location nodes, tree ∉ R ∧ ix.lookup tree = some location ∧
      codec.treeOf tree = .ok nodes ∧
      nodes.foldlM (markNode (mark codec packs ix fuel)) (R ++ [tree]) = .ok R' := by
  rw [mark] at h
  split_ifs at h with hmem
  · cases h
    exact .inl ⟨hmem, rfl⟩
  · right
    cases hlookup : ix.lookup tree with
    | none =>
        rw [hlookup] at h
        cases h
    | some location =>
        rw [hlookup] at h
        dsimp only at h
        cases hload : loadBlob codec packs location with
        | error e =>
            rw [hload] at h
            cases h
        | ok _ =>
            cases hnodes : codec.treeOf tree with
            | error e =>
                rw [hload, hnodes] at h
                cases h
            | ok nodes =>
                rw [hload, hnodes] at h
                exact ⟨location, nodes, hmem, rfl, rfl, h⟩

theorem foldlM_ok {α σ ε : Type} {P : σ → Prop} {f : σ → α → Except ε σ} {l : List α} {s s' : σ}
    (hs : P s) (hstep : ∀ s a s', P s → a ∈ l → f s a = .ok s' → P s')
    (h : l.foldlM f s = .ok s') : P s' := by
  induction l generalizing s with
  | nil =>
      cases h
      exact hs
  | cons a l ih =>
      rw [List.foldlM_cons] at h
      cases ha : f s a with
      | error e =>
          rw [ha] at h
          cases h
      | ok next =>
          rw [ha] at h
          refine ih (hstep s a next hs (List.mem_cons_self ..) ha) ?_ h
          exact fun s b s' hs hb => hstep s b s' hs (List.mem_cons_of_mem _ hb)

theorem mark_grows (h : mark codec packs ix fuel R tree = .ok R') : ∀ x ∈ R, x ∈ R' := by
  induction fuel generalizing R tree R' with
  | zero =>
      cases h
      exact fun x hx => hx
  | succ fuel ih =>
      obtain ⟨_, rfl⟩ | ⟨location, nodes, _, _, _, hfold⟩ := mark_cases h
      · exact fun x hx => hx
      · have hall : ∀ x ∈ R ++ [tree], x ∈ R' := by
          refine foldlM_ok (P := fun S => ∀ x ∈ R ++ [tree], x ∈ S) (fun x hx => hx) ?_ hfold
          intro S node S' hS _ hnode x hx
          cases node with
          | dir subtree => exact ih hnode x (hS x hx)
          | file content =>
              cases hnode
              exact (mem_insertAll content).mpr (.inl (hS x hx))
          | symlink =>
              cases hnode
              exact hS x hx
        exact fun x hx => hall x (List.mem_append_left _ hx)

theorem foldlM_congr {α σ ε : Type} {P : σ → Prop} {f g : σ → α → Except ε σ} {l : List α} {s : σ}
    (hs : P s) (hsame : ∀ s a, P s → a ∈ l → f s a = g s a)
    (hstep : ∀ s a s', P s → a ∈ l → f s a = .ok s' → P s') : l.foldlM f s = l.foldlM g s := by
  induction l generalizing s with
  | nil => rfl
  | cons a l ih =>
      rw [List.foldlM_cons, List.foldlM_cons, ← hsame s a hs (List.mem_cons_self ..)]
      cases ha : f s a with
      | error e => rfl
      | ok next =>
          have hnext : P next := hstep s a next hs (List.mem_cons_self ..) ha
          refine ih hnext ?_ ?_
          · exact fun s b hs hb => hsame s b hs (List.mem_cons_of_mem _ hb)
          · exact fun s b s' hs hb => hstep s b s' hs (List.mem_cons_of_mem _ hb)

theorem markNode_grows {node : TreeNode} (h : markNode (mark codec packs ix fuel) R node = .ok R') :
    ∀ x ∈ R, x ∈ R' := by
  cases node with
  | dir subtree => exact mark_grows h
  | file content =>
      cases h
      exact fun x hx => (mem_insertAll content).mpr (.inl hx)
  | symlink =>
      cases h
      exact fun x hx => hx

theorem mark_fuel (h : left ix R < fuel) :
    mark codec packs ix (fuel + 1) R tree = mark codec packs ix fuel R tree := by
  induction fuel generalizing R tree with
  | zero => exact absurd h (Nat.not_lt_zero _)
  | succ fuel ih =>
      rw [mark, mark]
      by_cases hmem : tree ∈ R
      · rw [if_pos hmem, if_pos hmem]
      rw [if_neg hmem, if_neg hmem]
      cases hlookup : ix.lookup tree with
      | none => rfl
      | some location =>
          dsimp only
          cases hload : loadBlob codec packs location with
          | error e => rfl
          | ok _ =>
              cases hnodes : codec.treeOf tree with
              | error e => rfl
              | ok nodes =>
                  have hlt := left_lt hlookup hmem
                  change nodes.foldlM (markNode (mark codec packs ix (fuel + 1))) (R ++ [tree]) =
                    nodes.foldlM (markNode (mark codec packs ix fuel)) (R ++ [tree])
                  refine foldlM_congr (P := fun S => ∀ x ∈ R ++ [tree], x ∈ S)
                    (fun x hx => hx) ?_ ?_
                  · intro S node hS _
                    cases node with
                    | dir subtree =>
                        have hle : left ix S ≤ left ix (R ++ [tree]) := left_le hS
                        exact ih (by omega)
                    | _ => rfl
                  · exact fun S node S' hS _ hnode x hx => markNode_grows hnode x (hS x hx)

section Covered

variable {IsTree : ObjectId → Prop}

/-- Between two moments of the walk: every tree that was marked had all its entries marked too. -/
structure Walked (codec : BlobCodec) (IsTree : ObjectId → Prop) (R R' : List ObjectId) : Prop where
  grows : ∀ x ∈ R, x ∈ R'
  subtrees : ∀ tree ∈ R', tree ∉ R → IsTree tree → ∀ nodes, codec.treeOf tree = .ok nodes →
    ∀ subtree, .dir subtree ∈ nodes → subtree ∈ R'
  chunks : ∀ tree ∈ R', tree ∉ R → IsTree tree → ∀ nodes, codec.treeOf tree = .ok nodes →
    ∀ content, .file content ∈ nodes → ∀ chunk ∈ content, chunk ∈ R'

theorem Walked.refl : Walked codec IsTree R R where
  grows _ hx := hx
  subtrees _ hmem hnot := absurd hmem hnot
  chunks _ hmem hnot := absurd hmem hnot

theorem Walked.trans (h : Walked codec IsTree R R') (h' : Walked codec IsTree R' R'') :
    Walked codec IsTree R R'' where
  grows x hx := h'.grows x (h.grows x hx)
  subtrees tree hmem hnot htree nodes hnodes subtree hsubtree := by
    by_cases hbefore : tree ∈ R'
    · exact h'.grows _ (h.subtrees tree hbefore hnot htree nodes hnodes subtree hsubtree)
    · exact h'.subtrees tree hmem hbefore htree nodes hnodes subtree hsubtree
  chunks tree hmem hnot htree nodes hnodes content hcontent chunk hchunk := by
    by_cases hbefore : tree ∈ R'
    · exact h'.grows _ (h.chunks tree hbefore hnot htree nodes hnodes content hcontent chunk hchunk)
    · exact h'.chunks tree hmem hbefore htree nodes hnodes content hcontent chunk hchunk

theorem walked_chunks {content : List ObjectId} (h : ∀ chunk ∈ content, ¬ IsTree chunk) :
    Walked codec IsTree R (content.foldl insert R) where
  grows _ hx := (mem_insertAll content).mpr (.inl hx)
  subtrees tree hmem hnot htree := absurd htree (h tree (((mem_insertAll content).mp hmem).resolve_left hnot))
  chunks tree hmem hnot htree := absurd htree (h tree (((mem_insertAll content).mp hmem).resolve_left hnot))

variable (hsubtree : ∀ tree nodes subtree, IsTree tree → codec.treeOf tree = .ok nodes →
    .dir subtree ∈ nodes → IsTree subtree)
  (hchunk : ∀ tree nodes content chunk, IsTree tree → codec.treeOf tree = .ok nodes →
    .file content ∈ nodes → chunk ∈ content → ¬ IsTree chunk)

include hsubtree hchunk

omit hsubtree hchunk in
theorem nodes_walked {base S S' : List ObjectId} {nodes : List TreeNode}
    (hbase : ∀ x ∈ base, x ∈ S)
    (hdirs : ∀ subtree, .dir subtree ∈ nodes → ∀ S S', (∀ x ∈ base, x ∈ S) →
      mark codec packs ix fuel S subtree = .ok S' → Walked codec IsTree S S' ∧ subtree ∈ S')
    (hfiles : ∀ content, .file content ∈ nodes → ∀ chunk ∈ content, ¬ IsTree chunk)
    (h : nodes.foldlM (markNode (mark codec packs ix fuel)) S = .ok S') :
    Walked codec IsTree S S' ∧ (∀ subtree, .dir subtree ∈ nodes → subtree ∈ S') ∧
      ∀ content, .file content ∈ nodes → ∀ chunk ∈ content, chunk ∈ S' := by
  induction nodes generalizing S with
  | nil =>
      cases h
      exact ⟨.refl, fun _ hmem => absurd hmem List.not_mem_nil,
        fun _ hmem => absurd hmem List.not_mem_nil⟩
  | cons node nodes ih =>
      rw [List.foldlM_cons] at h
      cases hnode : markNode (mark codec packs ix fuel) S node with
      | error e =>
          rw [hnode] at h
          cases h
      | ok next =>
          rw [hnode] at h
          have hnext : ∀ x ∈ base, x ∈ next := fun x hx => markNode_grows hnode x (hbase x hx)
          obtain ⟨hrest, hsubtrees, hchunks⟩ := ih hnext
            (fun subtree hmem => hdirs subtree (List.mem_cons_of_mem _ hmem))
            (fun content hmem => hfiles content (List.mem_cons_of_mem _ hmem)) h
          have hhead : Walked codec IsTree S next ∧ (∀ subtree, node = .dir subtree →
              subtree ∈ next) ∧ ∀ content, node = .file content → ∀ chunk ∈ content,
              chunk ∈ next := by
            cases node with
            | dir subtree =>
                obtain ⟨hwalked, hmem⟩ :=
                  hdirs subtree (List.mem_cons_self ..) S next hbase hnode
                exact ⟨hwalked, fun _ heq => TreeNode.dir.inj heq ▸ hmem, nofun⟩
            | file content =>
                cases hnode
                refine ⟨walked_chunks (hfiles content (List.mem_cons_self ..)), nofun, ?_⟩
                rintro _ ⟨⟩ chunk hmem
                exact (mem_insertAll content).mpr (.inr hmem)
            | symlink =>
                cases hnode
                exact ⟨.refl, nofun, nofun⟩
          obtain ⟨hwalked, hdir, hfile⟩ := hhead
          refine ⟨hwalked.trans hrest, ?_, ?_⟩
          · intro subtree hmem
            obtain heq | hmem := List.mem_cons.mp hmem
            · exact hrest.grows _ (hdir subtree heq.symm)
            · exact hsubtrees subtree hmem
          · intro content hmem chunk hchunk
            obtain heq | hmem := List.mem_cons.mp hmem
            · exact hrest.grows _ (hfile content heq.symm chunk hchunk)
            · exact hchunks content hmem chunk hchunk

theorem mark_walked (htree : IsTree tree) (hfuel : left ix R < fuel)
    (h : mark codec packs ix fuel R tree = .ok R') : Walked codec IsTree R R' ∧ tree ∈ R' := by
  induction fuel generalizing R tree R' with
  | zero => exact absurd hfuel (Nat.not_lt_zero _)
  | succ fuel ih =>
      obtain ⟨hmem, rfl⟩ | ⟨location, nodes, hmem, hlookup, hnodes, hfold⟩ := mark_cases h
      · exact ⟨.refl, hmem⟩
      have hlt := left_lt hlookup hmem
      have hdirsWalked : ∀ subtree, .dir subtree ∈ nodes → ∀ S S', (∀ x ∈ R ++ [tree], x ∈ S) →
          mark codec packs ix fuel S subtree = .ok S' →
            Walked codec IsTree S S' ∧ subtree ∈ S' := by
        intro subtree hmem S S' hS hmark
        have hle : left ix S ≤ left ix (R ++ [tree]) := left_le hS
        exact ih (hsubtree tree nodes subtree htree hnodes hmem) (by omega) hmark
      obtain ⟨hwalked, hdirs, hfiles⟩ := nodes_walked (fun x hx => hx) hdirsWalked
        (fun content hmem chunk hin => hchunk tree nodes content chunk htree hnodes hmem hin) hfold
      · have hself : tree ∈ R ++ [tree] := List.mem_append_right _ (List.mem_singleton_self _)
        refine ⟨⟨?_, ?_, ?_⟩, hwalked.grows _ hself⟩
        · exact fun x hx => hwalked.grows x (List.mem_append_left _ hx)
        · intro other hother hnot hisTree found hfound subtree hmem
          by_cases heq : other = tree
          · rw [heq, hnodes] at hfound
            cases hfound
            exact hdirs subtree hmem
          · refine hwalked.subtrees other hother ?_ hisTree found hfound subtree hmem
            simp [hnot, heq]
        · intro other hother hnot hisTree found hfound content hmem chunk hin
          by_cases heq : other = tree
          · rw [heq, hnodes] at hfound
            cases hfound
            exact hfiles content hmem chunk hin
          · refine hwalked.chunks other hother ?_ hisTree found hfound content hmem chunk hin
            simp [hnot, heq]

theorem markAll_walked {remaining : List (ObjectId × StoredSnapshot)} {referenced : List ObjectId}
    (hroots : ∀ s ∈ remaining, IsTree s.2.tree)
    (h : markAll codec packs ix remaining = .ok referenced) :
    Walked codec IsTree [] referenced ∧ ∀ s ∈ remaining, s.2.tree ∈ referenced := by
  have hfuel : ∀ R, left ix R < ix.blobs.size + 1 := by
    intro R
    have hle : left ix R ≤ ix.blobs.keys.length := List.countP_le_length
    rw [Std.ExtTreeMap.length_keys] at hle
    omega
  have hall : ∀ (l : List (ObjectId × StoredSnapshot)) (S : List ObjectId),
      (∀ s ∈ l, IsTree s.2.tree) →
      l.foldlM (fun R s => mark codec packs ix (ix.blobs.size + 1) R s.2.tree) S =
        .ok referenced →
      Walked codec IsTree S referenced ∧ ∀ s ∈ l, s.2.tree ∈ referenced := by
    intro l
    induction l with
    | nil =>
        rintro S _ ⟨⟩
        exact ⟨.refl, fun s hs => absurd hs List.not_mem_nil⟩
    | cons s l ih =>
        intro S hl hfold
        rw [List.foldlM_cons] at hfold
        obtain ⟨hs, hrest⟩ := List.forall_mem_cons.mp hl
        cases hmark : mark codec packs ix (ix.blobs.size + 1) S s.2.tree with
        | error e =>
            rw [hmark] at hfold
            cases hfold
        | ok next =>
            rw [hmark] at hfold
            obtain ⟨hwalked, hmem⟩ := mark_walked hsubtree hchunk hs (hfuel S) hmark
            obtain ⟨hlater, hroots⟩ := ih next hrest hfold
            exact ⟨hwalked.trans hlater, List.forall_mem_cons.mpr ⟨hlater.grows _ hmem, hroots⟩⟩
  exact hall remaining [] hroots h

end Covered

theorem mem_listSnapshots {store : PruneStore} {snapshots : List (ObjectId × StoredSnapshot)}
    {s : StoredSnapshot} (h : listSnapshots store = .ok snapshots) :
    (id, s) ∈ snapshots ↔ store.snapshots[id]? = some (.ok s) := by
  unfold listSnapshots at h
  cases hread : readObjects store.snapshots with
  | error e =>
      rw [hread] at h
      cases h
  | ok loaded =>
      rw [hread] at h
      cases h
      rw [(List.perm_insertionSort _ _).mem_iff, mem_readObjects hread]

theorem marked_of_apart {store : PruneStore} {forget referenced : List ObjectId} {b : ObjectId}
    (hapart : Apart codec store forget) (hexamined : Examined codec store forget ix referenced)
    (hb : Needed codec store forget b) : b ∈ referenced := by
  obtain ⟨_, ⟨snapshots, hsnapshots, _, hmarked⟩, _⟩ := hexamined
  let IsTree (tree : ObjectId) : Prop := ∃ (id : ObjectId) (s : StoredSnapshot),
    store.snapshots[id]? = some (.ok s) ∧ id ∉ forget ∧ TreeBeneath codec s.tree tree
  have hremaining : ∀ (id : ObjectId) (s : StoredSnapshot),
      (id, s) ∈ snapshots.filter (fun s => s.1 ∉ forget) ↔
        store.snapshots[id]? = some (.ok s) ∧ id ∉ forget := by
    intro id s
    rw [List.mem_filter, mem_listSnapshots hsnapshots, decide_eq_true_iff]
  have hsubtree : ∀ tree nodes subtree, IsTree tree → codec.treeOf tree = .ok nodes →
      .dir subtree ∈ nodes → IsTree subtree := by
    rintro tree nodes subtree ⟨id, s, hs, hkept, htree⟩ hnodes hmem
    exact ⟨id, s, hs, hkept, htree.step hnodes hmem⟩
  have hchunk : ∀ tree nodes content chunk, IsTree tree → codec.treeOf tree = .ok nodes →
      .file content ∈ nodes → chunk ∈ content → ¬ IsTree chunk := by
    rintro tree nodes content chunk ⟨id, s, hs, hkept, htree⟩ hnodes hcontent hmem
      ⟨other, s', hs', hkept', hsame⟩
    exact hapart id other s s' chunk hs hkept hs' hkept'
      ⟨tree, nodes, content, htree, hnodes, hcontent, hmem⟩ hsame
  have hsnapshot : ∀ s ∈ snapshots.filter (fun s => s.1 ∉ forget), IsTree s.2.tree := by
    rintro ⟨id, s⟩ hs
    obtain ⟨hs, hkept⟩ := (hremaining id s).mp hs
    exact ⟨id, s, hs, hkept, .here⟩
  obtain ⟨hwalked, hroots⟩ := markAll_walked hsubtree hchunk hsnapshot hmarked
  obtain ⟨id, s, hs, hkept, hbeneath⟩ := hb
  have htrees : ∀ tree, TreeBeneath codec s.tree tree → tree ∈ referenced := by
    intro tree htree
    induction htree with
    | here => exact hroots (id, s) ((hremaining id s).mpr ⟨hs, hkept⟩)
    | step htree hnodes hmem ih =>
        exact hwalked.subtrees _ ih List.not_mem_nil ⟨id, s, hs, hkept, htree⟩ _ hnodes _ hmem
  obtain htree | ⟨tree, nodes, content, htree, hnodes, hcontent, hmem⟩ := hbeneath
  · exact htrees b htree
  · exact hwalked.chunks tree (htrees tree htree) List.not_mem_nil ⟨id, s, hs, hkept, htree⟩ nodes
      hnodes content hcontent b hmem

end FileMirror.Prune
