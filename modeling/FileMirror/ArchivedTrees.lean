import FileMirror.PathArchive

set_option autoImplicit false

namespace FileMirror

section Lookup

variable {β : Type} {l out : List (String × β)} {name : String} {b : β}

theorem lookup_cons {other : String} :
    ((other, b) :: l).lookup name = if name = other then some b else l.lookup name := by
  rw [List.lookup_cons]
  by_cases h : name = other
  · rw [if_pos h, beq_iff_eq.mpr h]
  · rw [if_neg h, beq_eq_false_iff_ne.mpr h]

theorem lookup_iff_mem (h : (l.map Prod.fst).Nodup) : l.lookup name = some b ↔ (name, b) ∈ l := by
  induction l with
  | nil => simp
  | cons entry l ih =>
      obtain ⟨other, c⟩ := entry
      rw [List.map_cons, List.nodup_cons] at h
      rw [lookup_cons, List.mem_cons, Prod.mk.injEq]
      by_cases hname : name = other
      · subst hname
        rw [if_pos rfl, Option.some.injEq]
        constructor
        · exact fun hc => .inl ⟨rfl, hc.symm⟩
        · rintro (⟨_, hb⟩ | hmem)
          · exact hb.symm
          · exact absurd (List.mem_map_of_mem hmem) h.1
      · rw [if_neg hname, ih h.2]
        constructor
        · exact .inr
        · rintro (⟨heq, _⟩ | hmem)
          · exact absurd heq hname
          · exact hmem

theorem lookup_perm (h : (l.map Prod.fst).Nodup) (hperm : out.Perm l) :
    out.lookup name = l.lookup name := by
  have hout : (out.map Prod.fst).Nodup := (hperm.map Prod.fst).nodup_iff.mpr h
  ext b
  rw [lookup_iff_mem hout, lookup_iff_mem h, hperm.mem_iff]

theorem eq_nil_of_lookup (h : ∀ name, l.lookup name = none) : l = [] := by
  cases l with
  | nil => rfl
  | cons entry l =>
      obtain ⟨name, b⟩ := entry
      have hname := h name
      rw [lookup_cons, if_pos rfl] at hname
      cases hname

end Lookup

section Collect

variable {α β : Type} {f : String → α → Option (Option β)} {l : List (String × α)}
  {out : List (String × β)} {name : String}

def collect (f : String → α → Option (Option β)) :
    List (String × α) → Option (List (String × β))
  | [] => some []
  | (name, a) :: rest =>
      (f name a).bind fun b =>
        (collect f rest).map fun bs => (b.map (Prod.mk name)).toList ++ bs

theorem collect_cons {a : α} (h : collect f ((name, a) :: l) = some out) :
    ∃ b bs, f name a = some b ∧ collect f l = some bs ∧
      out = (b.map (Prod.mk name)).toList ++ bs := by
  obtain ⟨b, hb, hrest⟩ := Option.bind_eq_some_iff.mp h
  obtain ⟨bs, hbs, rfl⟩ := Option.map_eq_some_iff.mp hrest
  exact ⟨b, bs, hb, hbs, rfl⟩

theorem collect_keys (h : collect f l = some out) :
    (out.map Prod.fst).Sublist (l.map Prod.fst) := by
  induction l generalizing out with
  | nil =>
      cases h
      exact .slnil
  | cons entry l ih =>
      obtain ⟨name, a⟩ := entry
      obtain ⟨b, bs, _, hbs, rfl⟩ := collect_cons h
      cases b with
      | none => exact (ih hbs).cons name
      | some b => exact (ih hbs).cons_cons name

theorem collect_total {a : α} (h : collect f l = some out) (ha : l.lookup name = some a) :
    ∃ b, f name a = some b := by
  induction l generalizing out with
  | nil => cases ha
  | cons entry l ih =>
      obtain ⟨other, c⟩ := entry
      obtain ⟨b, bs, hb, hbs, _⟩ := collect_cons h
      rw [lookup_cons] at ha
      split_ifs at ha with hname
      · cases ha
        exact ⟨b, hname ▸ hb⟩
      · exact ih hbs ha

theorem collect_lookup {b : β} (hl : (l.map Prod.fst).Nodup) (h : collect f l = some out) :
    out.lookup name = some b ↔ ∃ a, l.lookup name = some a ∧ f name a = some (some b) := by
  induction l generalizing out with
  | nil =>
      cases h
      simp
  | cons entry l ih =>
      obtain ⟨other, a⟩ := entry
      obtain ⟨result, bs, hresult, hbs, rfl⟩ := collect_cons h
      rw [List.map_cons, List.nodup_cons] at hl
      rw [lookup_cons]
      by_cases hname : name = other
      · subst hname
        have habsent : bs.lookup name = none := by
          rw [Option.eq_none_iff_forall_ne_some]
          intro c hc
          have hkeys : (bs.map Prod.fst).Nodup := hl.2.sublist (collect_keys hbs)
          have hmem := List.mem_map_of_mem (f := Prod.fst) ((lookup_iff_mem hkeys).mp hc)
          exact hl.1 ((collect_keys hbs).subset hmem)
        rw [if_pos rfl]
        cases result with
        | none =>
            rw [Option.map_none, Option.toList_none, List.nil_append, habsent]
            simp [hresult]
        | some c =>
            rw [Option.map_some, Option.toList_some, List.singleton_append, lookup_cons,
              if_pos rfl]
            simp [hresult]
      · rw [if_neg hname, ← ih hl.2 hbs]
        cases result with
        | none => rfl
        | some c =>
            rw [Option.map_some, Option.toList_some, List.singleton_append, lookup_cons,
              if_neg hname]

end Collect

inductive Recorded (μ ρ : Type) where
  | file (recorded : ρ)
  | symlink (info : μ) (target : String)
  | dir (info : μ)
  deriving DecidableEq

namespace SnapNode

variable {μ ρ : Type}

def child (name : String) : SnapNode μ ρ → Option (SnapNode μ ρ)
  | .dir _ children => children.lookup name
  | _ => none

def descend : SnapNode μ ρ → List String → Option (SnapNode μ ρ)
  | node, [] => some node
  | node, name :: rest => (node.child name).bind fun next => next.descend rest

def entry : SnapNode μ ρ → Recorded μ ρ
  | .file recorded => .file recorded
  | .symlink info target => .symlink info target
  | .dir info _ => .dir info

theorem descend_append {node : SnapNode μ ρ} {p q : List String} :
    node.descend (p ++ q) = (node.descend p).bind fun next => next.descend q := by
  induction p generalizing node with
  | nil => rfl
  | cons name p ih =>
      rw [List.cons_append, descend, descend, Option.bind_assoc]
      exact Option.bind_congr fun next _ => ih

end SnapNode

namespace FsNode

variable {μ : Type} {node next : FsNode μ} {p q : List String} {name : String}

theorem descend_append :
    node.descend (p ++ q) = (node.descend p).bind fun next => next.descend q := by
  induction p generalizing node with
  | nil => rfl
  | cons name p ih =>
      rw [List.cons_append, descend, descend, Option.bind_assoc]
      exact Option.bind_congr fun next _ => ih

theorem dir_of_descend (h : node.descend (name :: p) = some next) :
    ∃ info children, node = .dir info children := by
  obtain ⟨child, hchild, _⟩ := Option.bind_eq_some_iff.mp h
  cases node with
  | dir info children => exact ⟨info, children, rfl⟩
  | _ => cases hchild

theorem Distinct.child (h : node.Distinct) (hchild : node.child name = some next) :
    next.Distinct := by
  cases node with
  | dir info children =>
      have hall := h.2
      clear h
      change children.lookup name = some next at hchild
      induction children with
      | nil => cases hchild
      | cons entry children ih =>
          obtain ⟨other, child⟩ := entry
          rw [lookup_cons] at hchild
          split_ifs at hchild
          · cases hchild
            exact hall.1
          · exact ih hall.2 hchild
  | _ => cases hchild

theorem Distinct.descend (h : node.Distinct) (hnext : node.descend p = some next) :
    next.Distinct := by
  induction p generalizing node with
  | nil =>
      cases hnext
      exact h
  | cons name p ih =>
      obtain ⟨child, hchild, hrest⟩ := Option.bind_eq_some_iff.mp hnext
      exact ih (h.child hchild) hrest

end FsNode

section Archived

variable {μ ρ : Type} {archiveFile : List String → μ → ρ} {skips : List String → Bool}
  {path rel : List String} {node next : FsNode μ} {a b : SnapNode μ ρ}

theorem archiveDir_eq_collect {children : List (String × FsNode μ)} :
    archiveDir archiveFile skips path children =
      collect (fun name => archiveEntry archiveFile skips (path ++ [name])) children := by
  induction children with
  | nil => rfl
  | cons entry children ih =>
      obtain ⟨name, node⟩ := entry
      rw [archiveDir, collect, ih]

theorem newTree_lookup {nodes : List (String × SnapNode μ ρ)} {name : String}
    (h : (nodes.map Prod.fst).Nodup) : (newTree nodes).lookup name = nodes.lookup name :=
  lookup_perm h (List.perm_insertionSort _ _)

theorem archiveEntry_child {name : String} (hdistinct : node.Distinct)
    (h : archiveEntry archiveFile skips path node = some (some a)) :
    a.child name = some b ↔ ∃ next, node.child name = some next ∧
      archiveEntry archiveFile skips (path ++ [name]) next = some (some b) := by
  cases node with
  | file info =>
      cases h
      simp [SnapNode.child, FsNode.child]
  | symlink info target =>
      cases h
      simp [SnapNode.child, FsNode.child]
  | special =>
      rw [archiveEntry] at h
      split_ifs at h
      cases h
  | dir info children =>
      obtain ⟨hnames, _⟩ := hdistinct
      rw [archiveEntry, archiveDir_eq_collect] at h
      obtain ⟨nodes, hnodes, ha⟩ := Option.map_eq_some_iff.mp h
      cases ha
      change (newTree nodes).lookup name = some b ↔ _
      rw [newTree_lookup (hnames.sublist (collect_keys hnodes))]
      exact collect_lookup hnames hnodes

theorem archiveEntry_kept {result : Option (SnapNode μ ρ)} (hspecial : node ≠ .special)
    (h : archiveEntry archiveFile skips path node = some result) : ∃ b, result = some b := by
  cases node with
  | special => exact absurd rfl hspecial
  | dir info children =>
      rw [archiveEntry] at h
      obtain ⟨nodes, _, rfl⟩ := Option.map_eq_some_iff.mp h
      exact ⟨_, rfl⟩
  | _ =>
      cases h
      exact ⟨_, rfl⟩

theorem archiveEntry_total {name : String} (hnode : node.child name = some next)
    (h : archiveEntry archiveFile skips path node = some (some a)) (hspecial : next ≠ .special) :
    ∃ b, archiveEntry archiveFile skips (path ++ [name]) next = some (some b) := by
  cases node with
  | dir info children =>
      rw [archiveEntry, archiveDir_eq_collect] at h
      obtain ⟨nodes, hnodes, _⟩ := Option.map_eq_some_iff.mp h
      obtain ⟨result, hresult⟩ := collect_total hnodes hnode
      obtain ⟨b, rfl⟩ := archiveEntry_kept hspecial hresult
      exact ⟨b, hresult⟩
  | _ => cases hnode

theorem archiveEntry_special (h : archiveEntry archiveFile skips path node = some (some a)) :
    node ≠ .special := by
  rintro rfl
  rw [archiveEntry] at h
  split_ifs at h
  cases h

theorem special_of_descend (hnext : node.descend rel = some next) (hspecial : next ≠ .special) :
    node ≠ .special := by
  rintro rfl
  cases rel with
  | nil =>
      cases hnext
      exact hspecial rfl
  | cons name rest => cases hnext

theorem archiveEntry_reach (h : archiveEntry archiveFile skips path node = some (some a))
    (hnext : node.descend rel = some next) (hspecial : next ≠ .special) :
    ∃ b, archiveEntry archiveFile skips (path ++ rel) next = some (some b) := by
  induction rel generalizing node path a with
  | nil =>
      cases hnext
      rw [List.append_nil]
      exact ⟨a, h⟩
  | cons name rest ih =>
      obtain ⟨child, hchild, hrest⟩ := Option.bind_eq_some_iff.mp hnext
      have happend : path ++ name :: rest = (path ++ [name]) ++ rest := by simp
      obtain ⟨c, hc⟩ := archiveEntry_total hchild h (special_of_descend hrest hspecial)
      rw [happend]
      exact ih hc hrest

theorem archiveEntry_descend (hdistinct : node.Distinct)
    (h : archiveEntry archiveFile skips path node = some (some a)) :
    a.descend rel = some b ↔ ∃ next, node.descend rel = some next ∧
      archiveEntry archiveFile skips (path ++ rel) next = some (some b) := by
  induction rel generalizing node path a with
  | nil =>
      rw [List.append_nil]
      constructor
      · intro hb
        cases hb
        exact ⟨node, rfl, h⟩
      · rintro ⟨next, hnext, hb⟩
        cases hnext
        rw [h] at hb
        cases hb
        rfl
  | cons name rest ih =>
      have happend : path ++ name :: rest = (path ++ [name]) ++ rest := by simp
      rw [SnapNode.descend, FsNode.descend, happend]
      constructor
      · intro hb
        obtain ⟨c, hc, hrest⟩ := Option.bind_eq_some_iff.mp hb
        obtain ⟨child, hchild, harchived⟩ := (archiveEntry_child hdistinct h).mp hc
        obtain ⟨next, hnext, hlast⟩ := (ih (hdistinct.child hchild) harchived).mp hrest
        exact ⟨next, Option.bind_eq_some_iff.mpr ⟨child, hchild, hnext⟩, hlast⟩
      · rintro ⟨next, hnext, hlast⟩
        obtain ⟨child, hchild, hrest⟩ := Option.bind_eq_some_iff.mp hnext
        have hspecial : child ≠ .special := special_of_descend hrest (archiveEntry_special hlast)
        obtain ⟨c, hc⟩ := archiveEntry_total hchild h hspecial
        refine Option.bind_eq_some_iff.mpr ⟨c, ?_, ?_⟩
        · exact (archiveEntry_child hdistinct h).mpr ⟨child, hchild, hc⟩
        · exact (ih (hdistinct.child hchild) hc).mpr ⟨next, hrest, hlast⟩

end Archived

namespace FileSystem

variable {μ : Type} {fs : FileSystem μ} {path rel place target : List String}
  {node next : FsNode μ} {links : ℕ}

def Normal (path : List String) : Prop := ∀ name ∈ path, name ≠ "." ∧ name ≠ ".."

theorem resolve_descend (links : ℕ) (hrel : Normal rel)
    (h : fs.root.descend (place ++ rel) = some next) :
    fs.resolve false links rel place = some (place ++ rel) := by
  induction rel generalizing place with
  | nil =>
      rw [List.append_nil]
      cases links <;> rfl
  | cons name rest ih =>
      obtain ⟨⟨hdot, hdots⟩, hrest⟩ := List.forall_mem_cons.mp hrel
      have happend : place ++ name :: rest = (place ++ [name]) ++ rest := by simp
      rw [happend] at h ⊢
      have hgo := ih hrest h
      rw [FsNode.descend_append] at h
      obtain ⟨node, hnode, hlast⟩ := Option.bind_eq_some_iff.mp h
      have hfollow : ∀ again : List String → List String → Option (List String),
          (∀ rest place, fs.follow false again rest place = fs.resolve false links rest place) →
          fs.follow false again (name :: rest) place = some ((place ++ [name]) ++ rest) := by
        intro again hagain
        rw [follow, if_neg hdot, if_neg hdots, hnode]
        cases node with
        | dir info children =>
            dsimp only
            rw [hagain, hgo]
        | _ =>
            cases rest with
            | nil =>
                rw [List.append_nil]
                simp
            | cons other rest => cases hlast
      cases links with
      | zero => exact hfollow _ fun _ _ => rfl
      | succ links => exact hfollow _ fun _ _ => rfl

theorem follow_append {again : List String → List String → Option (List String)} (hne : rel ≠ [])
    (hagain : ∀ path place target, again path place = some target →
      fs.root.descend (target ++ rel) = some next → again (path ++ rel) place = some (target ++ rel))
    (hrel : ∀ place, fs.root.descend (place ++ rel) = some next →
      fs.follow false again rel place = some (place ++ rel))
    (hpath : fs.follow false again path place = some target)
    (h : fs.root.descend (target ++ rel) = some next) :
    fs.follow false again (path ++ rel) place = some (target ++ rel) := by
  have hnotdir : ∀ place, place = target → (∀ info children,
      fs.root.descend place ≠ some (.dir info children)) → False := by
    rintro place rfl hnot
    cases rel with
    | nil => exact hne rfl
    | cons name rest =>
        rw [FsNode.descend_append] at h
        obtain ⟨node, hnode, hrest⟩ := Option.bind_eq_some_iff.mp h
        obtain ⟨info, children, rfl⟩ := FsNode.dir_of_descend hrest
        exact hnot info children hnode
  induction path generalizing place with
  | nil =>
      cases hpath
      exact hrel _ h
  | cons name rest ih =>
      rw [follow] at hpath
      rw [List.cons_append, follow]
      by_cases hdot : name = "."
      · rw [if_pos hdot] at hpath ⊢
        exact ih hpath
      by_cases hdots : name = ".."
      · rw [if_neg hdot, if_pos hdots] at hpath ⊢
        exact ih hpath
      rw [if_neg hdot, if_neg hdots] at hpath ⊢
      obtain hnone | ⟨node, hnode⟩ := Option.eq_none_or_eq_some (fs.root.descend (place ++ [name]))
      · rw [hnone] at hpath
        cases hpath
      rw [hnode] at hpath ⊢
      have hend : (∀ info children, node ≠ .dir info children) →
          some (place ++ [name]) ≠ some target := by
        intro hnot hend
        refine hnotdir _ (Option.some.inj hend) fun info children hdir => ?_
        rw [hnode, Option.some.injEq] at hdir
        exact hnot info children hdir
      cases node with
      | dir info children => exact ih hpath
      | symlink info link =>
          dsimp only at hpath ⊢
          rw [if_neg fun hlast => hne (List.append_eq_nil_iff.mp hlast.1).2, ← List.append_assoc]
          by_cases hlast : rest = [] ∧ false = false
          · rw [if_pos hlast] at hpath
            exact absurd hpath (hend fun _ _ hdir => by cases hdir)
          · rw [if_neg hlast] at hpath
            exact hagain _ _ _ hpath h
      | _ =>
          dsimp only at hpath
          split_ifs at hpath
          exact absurd hpath (hend fun _ _ hdir => by cases hdir)

theorem resolve_append (hnormal : Normal rel) (hne : rel ≠ [])
    (hpath : fs.resolve false links path place = some target)
    (h : fs.root.descend (target ++ rel) = some next) :
    fs.resolve false links (path ++ rel) place = some (target ++ rel) := by
  induction links generalizing path place target with
  | zero =>
      refine follow_append hne ?_ ?_ hpath h
      · rintro path place target ⟨⟩
      · exact fun place hplace => resolve_descend 0 hnormal hplace
  | succ links ih =>
      refine follow_append hne ?_ ?_ hpath h
      · exact fun path place target hpath hnext => ih hpath hnext
      · exact fun place hplace => resolve_descend (links + 1) hnormal hplace

theorem lstat_append (hnormal : Normal rel) (hnode : fs.lstat path = some node)
    (h : node.descend rel = some next) : fs.lstat (path ++ rel) = some next := by
  cases rel with
  | nil =>
      cases h
      rw [List.append_nil]
      exact hnode
  | cons name rest =>
      obtain ⟨target, htarget, hdescend⟩ := Option.bind_eq_some_iff.mp hnode
      have hnext : fs.root.descend (target ++ name :: rest) = some next := by
        rw [FsNode.descend_append, hdescend]
        exact h
      have hresolve := resolve_append hnormal (List.cons_ne_nil _ _) htarget hnext
      exact Option.bind_eq_some_iff.mpr ⟨_, hresolve, hnext⟩

theorem lstat_distinct (h : fs.lstat path = some node) : node.Distinct := by
  obtain ⟨target, _, hdescend⟩ := Option.bind_eq_some_iff.mp h
  exact fs.distinct.descend hdescend

end FileSystem

end FileMirror
