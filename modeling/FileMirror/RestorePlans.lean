import FileMirror.Restorer
import Mathlib.Data.List.Infix

set_option autoImplicit false

namespace FileMirror.Restorer

open SortedLookup TreeFormat

def relOf (dir : String) (trail : List String) : String := trail.foldl childPath dir

/-- A pattern matches the entry or a directory above it. -/
def Covers (m : PathMatcher) (dir : String) (trail : List String) : Prop :=
  ∃ p, p <+: trail ∧ p ≠ [] ∧ m.«matches» (relOf dir p) = true

def Selected (includes excludes : PathMatcher) (trail : List String) : Prop :=
  ¬ Covers excludes "" trail ∧ (includes.isEmpty = true ∨ Covers includes "" trail)

section Trails

variable {m : PathMatcher} {dir name : String} {trail : List String} {repo : Repository}
  {node n : TreeFormat.Node} {rest : List TreeFormat.Node}

theorem not_covers_nil : ¬ Covers m dir [] := by
  rintro ⟨p, hp, hne, _⟩
  exact hne (List.prefix_nil.mp hp)

theorem covers_cons : Covers m dir (name :: trail) ↔
    m.«matches» (childPath dir name) = true ∨ Covers m (childPath dir name) trail := by
  constructor
  · rintro ⟨p, hp, hne, hmatch⟩
    obtain _ | ⟨head, p⟩ := p
    · exact absurd rfl hne
    obtain ⟨rfl, hbelow⟩ := List.cons_prefix_cons.mp hp
    by_cases hnil : p = []
    · rw [hnil] at hmatch
      exact .inl hmatch
    · exact .inr ⟨p, hbelow, hnil, hmatch⟩
  · rintro (hmatch | ⟨p, hp, _, hmatch⟩)
    · exact ⟨[name], ⟨trail, rfl⟩, List.cons_ne_nil _ _, hmatch⟩
    · exact ⟨name :: p, List.cons_prefix_cons.mpr ⟨rfl, hp⟩, List.cons_ne_nil _ _, hmatch⟩

theorem covers_singleton : Covers m dir [name] ↔ m.«matches» (childPath dir name) = true := by
  rw [covers_cons, or_iff_left not_covers_nil]

theorem Covers.mono {p : List String} (h : Covers m dir p) (hp : p <+: trail) :
    Covers m dir trail := by
  obtain ⟨q, hq, hne, hmatch⟩ := h
  exact ⟨q, hq.trans hp, hne, hmatch⟩

theorem EntryIn.ne_nil {nodes : List TreeFormat.Node} (h : EntryIn repo nodes trail n) :
    trail ≠ [] := by
  cases h with
  | here hn => exact List.cons_ne_nil _ _
  | inside => exact List.cons_ne_nil _ _

theorem EntryIn.mono {nodes others : List TreeFormat.Node} (h : EntryIn repo nodes trail n)
    (hsub : nodes ⊆ others) : EntryIn repo others trail n := by
  cases h with
  | here hn => exact .here (hsub hn)
  | inside hd hdir hid htree h => exact .inside (hsub hd) hdir hid htree h

theorem entryIn_cons : EntryIn repo (node :: rest) trail n ↔
    trail = [node.name] ∧ n = node ∨
      (∃ id tree below, node.nodeType = .dir ∧ node.subtree = some id ∧
        repo.loadTree id = .ok tree ∧ EntryIn repo tree.nodes below n ∧
          trail = node.name :: below) ∨
      EntryIn repo rest trail n := by
  constructor
  · intro h
    cases h with
    | here hn =>
        rcases List.mem_cons.mp hn with rfl | hn
        · exact .inl ⟨rfl, rfl⟩
        · exact .inr (.inr (.here hn))
    | inside hd hdir hid htree h =>
        rcases List.mem_cons.mp hd with rfl | hd
        · exact .inr (.inl ⟨_, _, _, hdir, hid, htree, h, rfl⟩)
        · exact .inr (.inr (.inside hd hdir hid htree h))
  · rintro (⟨rfl, rfl⟩ | ⟨id, tree, below, hdir, hid, htree, h, rfl⟩ | h)
    · exact .here List.mem_cons_self
    · exact .inside List.mem_cons_self hdir hid htree h
    · exact h.mono (List.subset_cons_self _ _)

end Trails

section Walks

variable {includes excludes : PathMatcher} {repo : Repository} {nodes : List TreeFormat.Node}
  {dir : String} {included : Bool} {vs : List Visit} {v : Visit}

theorem visit_eq {node : TreeFormat.Node} :
    v = ⟨childPath dir node.name, node,
        included || includes.«matches» (childPath dir node.name)⟩ ↔
      v.node = node ∧ v.rel = relOf dir [node.name] ∧
        (v.selected = true ↔ included = true ∨ Covers includes dir [node.name]) := by
  obtain ⟨rel, n, selected⟩ := v
  rw [covers_singleton, ← Bool.or_eq_true, ← Bool.eq_iff_iff, Visit.mk.injEq]
  exact ⟨fun ⟨hrel, hn, hsel⟩ => ⟨hn, hrel, hsel⟩, fun ⟨hn, hrel, hsel⟩ => ⟨hrel, hn, hsel⟩⟩

theorem mem_visits (h : Visits includes excludes repo nodes dir included vs) :
    v ∈ vs ↔ ∃ trail, EntryIn repo nodes trail v.node ∧ v.rel = relOf dir trail ∧
      ¬ Covers excludes dir trail ∧
        (v.selected = true ↔ included = true ∨ Covers includes dir trail) := by
  induction h with
  | nil =>
      refine iff_of_false List.not_mem_nil ?_
      rintro ⟨trail, hentry, -⟩
      cases hentry with
      | here hn => cases hn
      | inside hd => cases hd
  | @excluded node rest dir included vs hmatch h ih =>
      rw [ih]
      refine exists_congr fun trail => ?_
      rw [entryIn_cons]
      constructor
      · rintro ⟨hentry, hall⟩
        exact ⟨.inr (.inr hentry), hall⟩
      · rintro ⟨⟨rfl, -⟩ | ⟨_, _, below, _, _, _, _, rfl⟩ | hentry, hrel, hclear, hsel⟩
        · exact absurd (covers_cons.mpr (.inl hmatch)) hclear
        · exact absurd (covers_cons.mpr (.inl hmatch)) hclear
        · exact ⟨hentry, hrel, hclear, hsel⟩
  | @leaf node rest dir included vs hmatch htype h ih =>
      have hclear : ¬ Covers excludes dir [node.name] := by
        rw [covers_singleton, hmatch]
        exact Bool.false_ne_true
      rw [List.mem_cons, ih, visit_eq]
      constructor
      · rintro (⟨hnode, hrel, hsel⟩ | ⟨trail, hentry, hall⟩)
        · exact ⟨[node.name], entryIn_cons.mpr (.inl ⟨rfl, hnode⟩), hrel, hclear, hsel⟩
        · exact ⟨trail, entryIn_cons.mpr (.inr (.inr hentry)), hall⟩
      · rintro ⟨trail, hentry, hrel, hout, hsel⟩
        rcases entryIn_cons.mp hentry with ⟨rfl, hnode⟩ | ⟨_, _, _, hdir, _⟩ | hentry
        · exact .inl ⟨hnode, hrel, hsel⟩
        · exact absurd hdir htype
        · exact .inr ⟨trail, hentry, hrel, hout, hsel⟩
  | @dir node rest dir included id tree vs ws hmatch htype hid htree hbelow h ihbelow ih =>
      have hsingle : ¬ Covers excludes dir [node.name] := by
        rw [covers_singleton, hmatch]
        exact Bool.false_ne_true
      have hunder : ∀ trail, Covers excludes dir (node.name :: trail) ↔
          Covers excludes (childPath dir node.name) trail := fun trail => by
        rw [covers_cons, hmatch, or_iff_right Bool.false_ne_true]
      have hwanted : ∀ trail,
          ((included || includes.«matches» (childPath dir node.name)) = true ∨
            Covers includes (childPath dir node.name) trail) ↔
          (included = true ∨ Covers includes dir (node.name :: trail)) := fun trail => by
        rw [covers_cons, Bool.or_eq_true, or_assoc]
      rw [List.mem_cons, List.mem_append, ih, ihbelow, visit_eq]
      constructor
      · rintro (⟨hnode, hrel, hsel⟩ | ⟨trail, hentry, hrel, hout, hsel⟩ | ⟨trail, hentry, hall⟩)
        · exact ⟨[node.name], entryIn_cons.mpr (.inl ⟨rfl, hnode⟩), hrel, hsingle, hsel⟩
        · refine ⟨node.name :: trail, entryIn_cons.mpr (.inr (.inl ?_)), hrel, ?_, ?_⟩
          · exact ⟨id, tree, trail, htype, hid, htree, hentry, rfl⟩
          · rwa [hunder]
          · rwa [← hwanted]
        · exact ⟨trail, entryIn_cons.mpr (.inr (.inr hentry)), hall⟩
      · rintro ⟨trail, hentry, hrel, hout, hsel⟩
        rcases entryIn_cons.mp hentry with ⟨rfl, hnode⟩ |
          ⟨other, t, below, _, hother, hloaded, hinside, rfl⟩ | hentry
        · exact .inl ⟨hnode, hrel, hsel⟩
        · cases hid.symm.trans hother
          cases htree.symm.trans hloaded
          refine .inr (.inl ⟨below, hinside, hrel, ?_, ?_⟩)
          · rwa [← hunder]
          · rwa [hwanted]
        · exact .inr (.inr ⟨trail, hentry, hrel, hout, hsel⟩)

theorem visits_order (h : Visits includes excludes repo nodes dir included vs)
    {front back : List Visit} (hsplit : vs = front ++ v :: back) :
    ∃ trail, EntryIn repo nodes trail v.node ∧ v.rel = relOf dir trail ∧
      ∀ p, p <+: trail → p ≠ [] → p ≠ trail →
        ∃ u ∈ front, u.rel = relOf dir p ∧ u.node.nodeType = .dir := by
  have hfirst : ∀ (node : TreeFormat.Node) (rest : List TreeFormat.Node) (dir : String)
      (selected : Bool), v = ⟨childPath dir node.name, node, selected⟩ →
      ∃ trail, EntryIn repo (node :: rest) trail v.node ∧ v.rel = relOf dir trail ∧
        ∀ p, p <+: trail → p ≠ [] → p ≠ trail →
          ∃ u ∈ ([] : List Visit), u.rel = relOf dir p ∧ u.node.nodeType = .dir := by
    rintro node rest dir selected rfl
    refine ⟨[node.name], .here List.mem_cons_self, rfl, fun p hp hne hproper => ?_⟩
    obtain _ | ⟨head, p⟩ := p
    · exact absurd rfl hne
    · obtain ⟨rfl, hnil⟩ := List.cons_prefix_cons.mp hp
      rw [List.prefix_nil.mp hnil] at hproper
      exact absurd rfl hproper
  induction h generalizing front back with
  | nil => exact absurd hsplit.symm (List.append_ne_nil_of_right_ne_nil _ (List.cons_ne_nil _ _))
  | excluded hmatch h ih =>
      obtain ⟨trail, hentry, hall⟩ := ih hsplit
      exact ⟨trail, hentry.mono (List.subset_cons_self _ _), hall⟩
  | @leaf node rest dir included vs hmatch htype h ih =>
      obtain _ | ⟨first, front⟩ := front
      · exact hfirst node rest dir _ (List.cons.inj hsplit).1.symm
      · obtain ⟨trail, hentry, hrel, habove⟩ := ih (List.cons.inj hsplit).2
        refine ⟨trail, hentry.mono (List.subset_cons_self _ _), hrel, fun p hp hne hproper => ?_⟩
        obtain ⟨u, hu, hall⟩ := habove p hp hne hproper
        exact ⟨u, List.mem_cons_of_mem _ hu, hall⟩
  | @dir node rest dir included id tree vs ws hmatch htype hid htree hbelow h ihbelow ih =>
      obtain _ | ⟨first, front⟩ := front
      · exact hfirst node rest dir _ (List.cons.inj hsplit).1.symm
      · obtain ⟨rfl, htail⟩ := List.cons.inj hsplit
        have hinside : ∀ more, ws = front ++ v :: more →
            ∃ trail, EntryIn repo (node :: rest) trail v.node ∧ v.rel = relOf dir trail ∧
              ∀ p, p <+: trail → p ≠ [] → p ≠ trail →
                ∃ u ∈ (⟨childPath dir node.name, node,
                    included || includes.«matches» (childPath dir node.name)⟩ : Visit) :: front,
                  u.rel = relOf dir p ∧ u.node.nodeType = .dir := by
          intro more hws
          obtain ⟨trail, hentry, hrel, habove⟩ := ihbelow hws
          refine ⟨node.name :: trail, .inside List.mem_cons_self htype hid htree hentry, hrel,
            fun p hp hne hproper => ?_⟩
          obtain _ | ⟨head, p⟩ := p
          · exact absurd rfl hne
          obtain ⟨rfl, hunder⟩ := List.cons_prefix_cons.mp hp
          by_cases hnil : p = []
          · exact ⟨_, List.mem_cons_self, by rw [hnil]; rfl, htype⟩
          · have hshort : p ≠ trail := fun heq => hproper (by rw [heq])
            obtain ⟨u, hu, hall⟩ := habove p hunder hnil hshort
            exact ⟨u, List.mem_cons_of_mem _ hu, hall⟩
        obtain ⟨middle, hfront, hvs⟩ | ⟨middle, hws, hv⟩ := List.append_eq_append_iff.mp htail
        · obtain ⟨trail, hentry, hrel, habove⟩ := ih hvs
          refine ⟨trail, hentry.mono (List.subset_cons_self _ _), hrel, fun p hp hne hproper => ?_⟩
          obtain ⟨u, hu, hall⟩ := habove p hp hne hproper
          rw [hfront]
          exact ⟨u, List.mem_cons_of_mem _ (List.mem_append_right _ hu), hall⟩
        · obtain _ | ⟨first, middle⟩ := middle
          · rw [List.append_nil] at hws
            obtain ⟨trail, hentry, hrel, habove⟩ := ih (show vs = [] ++ v :: back from hv.symm)
            refine ⟨trail, hentry.mono (List.subset_cons_self _ _), hrel,
              fun p hp hne hproper => ?_⟩
            obtain ⟨u, hu, -⟩ := habove p hp hne hproper
            cases hu
          · obtain ⟨rfl, -⟩ := List.cons.inj hv
            exact hinside middle hws

end Walks

section Paths

variable {repo : Repository} {nodes : List TreeFormat.Node} {trail other : List String}
  {name : String} {n : TreeFormat.Node} {parts : List (List Char)} {q : List Char}

theorem slashed_concat {last : List Char} (h : parts ≠ []) :
    slashed (parts ++ [last]) = slashed parts ++ '/' :: last := by
  induction parts with
  | nil => exact absurd rfl h
  | cons part parts ih =>
      obtain rfl | hne := eq_or_ne parts []
      · simp [slashed]
      · have hcons : ∀ rest : List (List Char), rest ≠ [] →
            slashed (part :: rest) = part ++ ['/'] ++ slashed rest :=
          fun rest => List.intercalate_cons_of_ne_nil
        have happend : parts ++ [last] ≠ [] :=
          List.append_ne_nil_of_left_ne_nil hne _
        rw [List.cons_append, hcons _ happend, ih hne, hcons _ hne, List.append_assoc,
          List.append_assoc, List.append_assoc]

theorem mem_parentsOf (hparts : ∀ part ∈ parts, '/' ∉ part) :
    q ∈ parentsOf (slashed parts) ↔ ∃ p, p <+: parts ∧ p ≠ [] ∧ p ≠ parts ∧ q = slashed p := by
  induction parts using List.reverseRecOn with
  | nil =>
      rw [show slashed [] = [] from rfl, parentsOf, rsplitOnce_of_not_mem List.not_mem_nil]
      refine iff_of_false List.not_mem_nil ?_
      rintro ⟨p, hp, hne, -⟩
      exact hne (List.prefix_nil.mp hp)
  | append_singleton front last ih =>
      have hfront : ∀ part ∈ front, '/' ∉ part := fun part hpart =>
        hparts part (List.mem_append_left _ hpart)
      have hlast : '/' ∉ last := hparts last (List.mem_append_right _ List.mem_cons_self)
      by_cases hnil : front = []
      · rw [hnil, List.nil_append, show slashed [last] = last from List.intercalate_singleton,
          parentsOf, rsplitOnce_of_not_mem hlast]
        refine iff_of_false List.not_mem_nil ?_
        rintro ⟨p, hp, hne, hproper, -⟩
        rcases List.prefix_cons_iff.mp hp with rfl | ⟨rest, rfl, hrest⟩
        · exact hne rfl
        · rw [List.prefix_nil.mp hrest] at hproper
          exact hproper rfl
      · rw [slashed_concat hnil, parentsOf, rsplitOnce_append hlast]
        dsimp only
        rw [List.mem_cons, ih hfront]
        constructor
        · rintro (rfl | ⟨p, hp, hne, hproper, rfl⟩)
          · exact ⟨front, List.prefix_append _ _, hnil, by simp, rfl⟩
          · refine ⟨p, hp.trans (List.prefix_append _ _), hne, ?_, rfl⟩
            rintro rfl
            have hlen := hp.length_le
            rw [List.length_append, List.length_singleton] at hlen
            omega
        · rintro ⟨p, hp, hne, hproper, rfl⟩
          have hp := (List.prefix_concat_iff.mp hp).resolve_left hproper
          by_cases heq : p = front
          · exact .inl (by rw [heq])
          · exact .inr ⟨p, hp, hne, heq, rfl⟩

theorem slashed_ne_nil (hne : parts ≠ []) (hparts : ∀ part ∈ parts, part ≠ []) :
    slashed parts ≠ [] := by
  obtain ⟨part, rest, rfl⟩ := List.exists_cons_of_ne_nil hne
  obtain ⟨c, part', rfl⟩ := List.exists_cons_of_ne_nil (hparts _ List.mem_cons_self)
  rw [slashed, List.intercalate_cons_cons_left]
  exact List.cons_ne_nil _ _

def Proper (trail : List String) : Prop := ∀ name ∈ trail, name ≠ "" ∧ '/' ∉ name.toList

theorem Proper.chars (h : Proper trail) :
    ∀ part ∈ trail.map String.toList, part ≠ [] ∧ '/' ∉ part := by
  intro part hpart
  obtain ⟨name, hname, rfl⟩ := List.mem_map.mp hpart
  refine ⟨fun hnil => (h name hname).1 ?_, (h name hname).2⟩
  exact String.toList_inj.mp hnil

theorem Proper.shorter {p : List String} (h : Proper trail) (hp : p <+: trail) : Proper p :=
  fun name hname => h name (hp.subset hname)

theorem toList_relOf (h : Proper trail) :
    (relOf "" trail).toList = slashed (trail.map String.toList) := by
  induction trail using List.reverseRecOn with
  | nil => rfl
  | append_singleton front last ih =>
      have hfront : Proper front := h.shorter (List.prefix_append _ _)
      have hstep : relOf "" (front ++ [last]) = childPath (relOf "" front) last := by
        rw [relOf, List.foldl_append]
        rfl
      rw [hstep, List.map_append, List.map_singleton]
      by_cases hnil : front = []
      · rw [hnil]
        simp [relOf, childPath, slashed]
      · have hmap : front.map String.toList ≠ [] := fun h => hnil (List.map_eq_nil_iff.mp h)
        have hparent : relOf "" front ≠ "" := by
          intro hempty
          have hslashed := ih hfront
          rw [hempty] at hslashed
          exact slashed_ne_nil hmap (fun part hpart => (hfront.chars part hpart).1) hslashed.symm
        rw [childPath, if_neg hparent, slashed_concat hmap, ← ih hfront, String.toList_append,
          String.toList_append, List.append_assoc]
        rfl

theorem relOf_injective (h : Proper trail) (hother : Proper other) (hne : trail ≠ [])
    (hne' : other ≠ []) (heq : relOf "" trail = relOf "" other) : trail = other := by
  have hsplit : ∀ {l : List String}, Proper l → l ≠ [] →
      (relOf "" l).toList.splitOn '/' = l.map String.toList := by
    intro l hl hl'
    rw [toList_relOf hl]
    refine List.splitOn_intercalate _ (fun part hpart => (hl.chars part hpart).2) ?_
    exact fun hnil => hl' (List.map_eq_nil_iff.mp hnil)
  have hparts := (hsplit h hne).symm.trans ((congrArg _ (congrArg _ heq)).trans (hsplit hother hne'))
  exact List.map_injective_iff.mpr (fun _ _ => String.toList_inj.mp) hparts

theorem mem_parentsOf_relOf (h : Proper trail) : q ∈ parentsOf (relOf "" trail).toList ↔
    ∃ p, p <+: trail ∧ p ≠ [] ∧ p ≠ trail ∧ q = (relOf "" p).toList := by
  rw [toList_relOf h, mem_parentsOf fun part hpart => (h.chars part hpart).2]
  constructor
  · rintro ⟨p, hp, hne, hproper, rfl⟩
    obtain ⟨front, hfront, rfl⟩ := List.prefix_map_iff.mp hp
    refine ⟨front, hfront, ?_, ?_, (toList_relOf (h.shorter hfront)).symm⟩
    · exact fun hnil => hne (by rw [hnil]; rfl)
    · exact fun heq => hproper (by rw [heq])
  · rintro ⟨p, hp, hne, hproper, rfl⟩
    refine ⟨p.map String.toList, hp.map _, ?_, ?_, toList_relOf (h.shorter hp)⟩
    · exact fun hnil => hne (List.map_eq_nil_iff.mp hnil)
    · exact fun heq => hproper (List.map_injective_iff.mpr (fun _ _ => String.toList_inj.mp) heq)

theorem EntryIn.proper (h : EntryIn repo nodes trail n) (hvalid : ∀ n ∈ nodes, n.Valid) :
    Proper trail := by
  induction h with
  | here hn =>
      rintro name hname
      rw [List.mem_singleton.mp hname]
      exact ⟨(hvalid _ hn).nonempty, (hvalid _ hn).slash⟩
  | inside hd hdir hid htree h ih =>
      rintro name hname
      rcases List.mem_cons.mp hname with rfl | hname
      · exact ⟨(hvalid _ hd).nonempty, (hvalid _ hd).slash⟩
      · exact ih (loadTree_canonical htree).valid name hname

theorem EntryIn.above {p : List String} (h : EntryIn repo nodes trail n) (hp : p <+: trail)
    (hne : p ≠ []) (hproper : p ≠ trail) :
    ∃ d, EntryIn repo nodes p d ∧ d.nodeType = .dir := by
  induction h generalizing p with
  | here hn =>
      rcases List.prefix_cons_iff.mp hp with rfl | ⟨rest, rfl, hrest⟩
      · exact absurd rfl hne
      · rw [List.prefix_nil.mp hrest] at hproper
        exact absurd rfl hproper
  | @inside nodes d n id tree trail hd hdir hid htree h ih =>
      rcases List.prefix_cons_iff.mp hp with rfl | ⟨rest, rfl, hrest⟩
      · exact absurd rfl hne
      · by_cases hnil : rest = []
        · rw [hnil]
          exact ⟨d, .here hd, hdir⟩
        · have hshort : rest ≠ trail := fun heq => hproper (by rw [heq])
          obtain ⟨d', hentry, hdir'⟩ := ih hrest hnil hshort
          exact ⟨d', .inside hd hdir hid htree hentry, hdir'⟩

end Paths

structure Plans (repo : Repository) (nodes : List TreeFormat.Node) (includes excludes : PathMatcher)
    (plan : Plan) : Prop where
  files : ∀ rel n, (rel, n) ∈ plan.files ↔ ∃ trail, EntryIn repo nodes trail n ∧
    rel = relOf "" trail ∧ n.nodeType = .file ∧ Selected includes excludes trail
  symlinks : ∀ rel n, (rel, n) ∈ plan.symlinks ↔ ∃ trail, EntryIn repo nodes trail n ∧
    rel = relOf "" trail ∧ n.nodeType = .symlink ∧ Selected includes excludes trail
  dirs : ∀ rel n selected, (rel, n, selected) ∈ plan.dirs ↔ ∃ trail, EntryIn repo nodes trail n ∧
    rel = relOf "" trail ∧ n.nodeType = .dir ∧ ¬ Covers excludes "" trail ∧
      (selected = true ↔ Selected includes excludes trail) ∧
        (Selected includes excludes trail ∨ ∃ deeper m, EntryIn repo nodes deeper m ∧
          trail <+: deeper ∧ trail ≠ deeper ∧ Selected includes excludes deeper)
  above : ∀ trail n, EntryIn repo nodes trail n → Selected includes excludes trail →
    ∀ p, p <+: trail → p ≠ [] → p ≠ trail → ∃ d selected, (relOf "" p, d, selected) ∈ plan.dirs
  parentsFirst : ∀ front rel n selected back, plan.dirs = front ++ (rel, n, selected) :: back →
    ∀ trail, EntryIn repo nodes trail n → rel = relOf "" trail →
      ∀ p, p <+: trail → p ≠ [] → p ≠ trail → ∃ d ∈ front, d.1 = relOf "" p

section Pruning

variable {includes excludes : PathMatcher} {repo : Repository} {nodes : List TreeFormat.Node}
  {vs : List Visit} {rel : String} {n : TreeFormat.Node} {selected : Bool}

theorem mem_pruned_dirs : (rel, n, selected) ∈ (pruneDirs (Plan.extend ⟨[], [], []⟩ vs)).dirs ↔
    ⟨rel, n, selected⟩ ∈ vs ∧ n.nodeType = .dir ∧ (selected = true ∨
      ∃ u ∈ vs, u.selected = true ∧ rel.toList ∈ parentsOf u.rel.toList) := by
  have hneeded : rel.toList ∈ (((Plan.extend ⟨[], [], []⟩ vs).files ++
      (Plan.extend ⟨[], [], []⟩ vs).symlinks).map Prod.fst ++
        ((Plan.extend ⟨[], [], []⟩ vs).dirs.filter fun dir => dir.2.2).map Prod.fst).flatMap
          (fun rel => parentsOf rel.toList) ↔
      ∃ u ∈ vs, u.selected = true ∧ rel.toList ∈ parentsOf u.rel.toList := by
    simp only [Plan.extend, List.nil_append, List.mem_flatMap, List.mem_append, List.mem_map,
      List.mem_filter, Bool.and_eq_true, decide_eq_true_eq]
    constructor
    · rintro ⟨_, ⟨_, ⟨u, ⟨hu, -, hsel⟩, rfl⟩ | ⟨u, ⟨hu, -, hsel⟩, rfl⟩, rfl⟩ |
        ⟨_, ⟨⟨u, ⟨hu, -⟩, rfl⟩, hsel⟩, rfl⟩, hparent⟩
      · exact ⟨u, hu, hsel, hparent⟩
      · exact ⟨u, hu, hsel, hparent⟩
      · exact ⟨u, hu, hsel, hparent⟩
    · rintro ⟨u, hu, hsel, hparent⟩
      refine ⟨u.rel, ?_, hparent⟩
      cases htype : u.node.nodeType with
      | file => exact .inl ⟨_, .inl ⟨u, ⟨hu, htype, hsel⟩, rfl⟩, rfl⟩
      | symlink => exact .inl ⟨_, .inr ⟨u, ⟨hu, htype, hsel⟩, rfl⟩, rfl⟩
      | dir => exact .inr ⟨_, ⟨⟨u, ⟨hu, htype⟩, rfl⟩, hsel⟩, rfl⟩
  unfold pruneDirs
  dsimp only
  rw [List.mem_filter, Bool.or_eq_true, decide_eq_true_eq, hneeded, ← and_assoc]
  refine and_congr_left fun _ => ?_
  simp only [Plan.extend, List.nil_append, List.mem_map, List.mem_filter, decide_eq_true_eq,
    Prod.mk.injEq]
  constructor
  · rintro ⟨⟨_, _, _⟩, ⟨hv, htype⟩, rfl, rfl, rfl⟩
    exact ⟨hv, htype⟩
  · rintro ⟨hv, htype⟩
    exact ⟨_, ⟨hv, htype⟩, rfl, rfl, rfl⟩

theorem pruned_dirs_eq (vs : List Visit) : ∃ needed : List (List Char),
    (pruneDirs (Plan.extend ⟨[], [], []⟩ vs)).dirs = vs.filterMap fun v =>
      if v.node.nodeType = .dir ∧ (v.selected || decide (v.rel.toList ∈ needed)) = true then
        some (v.rel, v.node, v.selected) else none := by
  have hfilter : ∀ (needed : List (List Char)) (vs : List Visit),
      ((vs.filter fun v => v.node.nodeType = .dir).map fun v => (v.rel, v.node, v.selected)).filter
        (fun dir => dir.2.2 || decide (dir.1.toList ∈ needed)) = vs.filterMap fun v =>
          if v.node.nodeType = .dir ∧ (v.selected || decide (v.rel.toList ∈ needed)) = true then
            some (v.rel, v.node, v.selected) else none := by
    intro needed vs
    induction vs with
    | nil => rfl
    | cons v vs ih =>
        rw [List.filterMap_cons, ← ih, List.filter_cons]
        by_cases hdir : v.node.nodeType = .dir
        · rw [if_pos (decide_eq_true hdir), List.map_cons, List.filter_cons]
          by_cases hkeep : (v.selected || decide (v.rel.toList ∈ needed)) = true
          · rw [if_pos hkeep, if_pos ⟨hdir, hkeep⟩]
          · rw [if_neg hkeep, if_neg fun h => hkeep h.2]
        · rw [if_neg (by simpa using hdir), if_neg fun h => hdir h.1]
  unfold pruneDirs
  dsimp only [Plan.extend]
  exact ⟨_, hfilter _ vs⟩

variable (hvalid : ∀ n ∈ nodes, n.Valid)
  (h : Visits includes excludes repo nodes "" includes.isEmpty vs)

include h

theorem mem_selected : (∃ v ∈ vs, v.rel = rel ∧ v.node = n ∧ v.selected = true) ↔
    ∃ trail, EntryIn repo nodes trail n ∧ rel = relOf "" trail ∧
      Selected includes excludes trail := by
  constructor
  · rintro ⟨v, hv, rfl, rfl, hsel⟩
    obtain ⟨trail, hentry, hrel, hclear, hiff⟩ := (mem_visits h).mp hv
    exact ⟨trail, hentry, hrel, hclear, hiff.mp hsel⟩
  · rintro ⟨trail, hentry, rfl, hclear, hwanted⟩
    have hv : (⟨relOf "" trail, n, true⟩ : Visit) ∈ vs :=
      (mem_visits h).mpr ⟨trail, hentry, rfl, hclear, iff_of_true rfl hwanted⟩
    exact ⟨_, hv, rfl, rfl, rfl⟩

include hvalid

theorem needed_iff {trail : List String} (hentry : EntryIn repo nodes trail n) :
    (∃ u ∈ vs, u.selected = true ∧ (relOf "" trail).toList ∈ parentsOf u.rel.toList) ↔
      ∃ deeper m, EntryIn repo nodes deeper m ∧ trail <+: deeper ∧ trail ≠ deeper ∧
        Selected includes excludes deeper := by
  have htrail := hentry.proper hvalid
  constructor
  · rintro ⟨u, hu, hsel, hparent⟩
    obtain ⟨deeper, hdeep, hrel, hselected⟩ := (mem_selected h).mp ⟨u, hu, rfl, rfl, hsel⟩
    have hproper := hdeep.proper hvalid
    rw [hrel] at hparent
    obtain ⟨p, hp, hne, hshort, heq⟩ := (mem_parentsOf_relOf hproper).mp hparent
    obtain rfl := relOf_injective htrail (hproper.shorter hp) hentry.ne_nil hne
      (String.toList_inj.mp heq)
    exact ⟨deeper, u.node, hdeep, hp, hshort, hselected⟩
  · rintro ⟨deeper, m, hdeep, hp, hshort, hselected⟩
    obtain ⟨u, hu, hrel, -, hsel⟩ := (mem_selected h).mpr ⟨deeper, hdeep, rfl, hselected⟩
    refine ⟨u, hu, hsel, ?_⟩
    rw [hrel]
    exact (mem_parentsOf_relOf (hdeep.proper hvalid)).mpr ⟨trail, hp, hentry.ne_nil, hshort, rfl⟩

theorem mem_planned_dirs : (rel, n, selected) ∈ (pruneDirs (Plan.extend ⟨[], [], []⟩ vs)).dirs ↔
    ∃ trail, EntryIn repo nodes trail n ∧ rel = relOf "" trail ∧ n.nodeType = .dir ∧
      ¬ Covers excludes "" trail ∧ (selected = true ↔ Selected includes excludes trail) ∧
        (Selected includes excludes trail ∨ ∃ deeper m, EntryIn repo nodes deeper m ∧
          trail <+: deeper ∧ trail ≠ deeper ∧ Selected includes excludes deeper) := by
  rw [mem_pruned_dirs, mem_visits h]
  constructor
  · rintro ⟨⟨trail, hentry, rfl, hclear, hiff⟩, htype, hkept⟩
    have hselected : selected = true ↔ Selected includes excludes trail :=
      hiff.trans (and_iff_right hclear).symm
    refine ⟨trail, hentry, rfl, htype, hclear, hselected, ?_⟩
    rwa [← hselected, ← needed_iff hvalid h hentry]
  · rintro ⟨trail, hentry, rfl, htype, hclear, hiff, hkept⟩
    refine ⟨⟨trail, hentry, rfl, hclear, hiff.trans (and_iff_right hclear)⟩, htype, ?_⟩
    rwa [hiff, needed_iff hvalid h hentry]

theorem pruned_parentsFirst {front back : List (String × TreeFormat.Node × Bool)}
    (hsplit : (pruneDirs (Plan.extend ⟨[], [], []⟩ vs)).dirs = front ++ (rel, n, selected) :: back)
    {trail p : List String} (hentry : EntryIn repo nodes trail n) (hrel : rel = relOf "" trail)
    (hp : p <+: trail) (hne : p ≠ []) (hproper : p ≠ trail) : ∃ d ∈ front, d.1 = relOf "" p := by
  have hkept : (rel, n, selected) ∈ (pruneDirs (Plan.extend ⟨[], [], []⟩ vs)).dirs := by
    rw [hsplit]
    exact List.mem_append_right _ List.mem_cons_self
  obtain ⟨needed, hdirs⟩ := pruned_dirs_eq vs
  rw [hdirs] at hsplit
  obtain ⟨before, after, rfl, rfl, hafter⟩ := List.filterMap_eq_append_iff.mp hsplit
  obtain ⟨skipped, v, rest, rfl, hskipped, hv, -⟩ := List.filterMap_eq_cons_iff.mp hafter
  obtain ⟨-, hvdir⟩ := Option.ite_none_right_eq_some.mp hv
  cases hvdir
  -- The trail of the visit is the given one, as it has the same path.
  obtain ⟨trail', hentry', hrel', habove⟩ :=
    visits_order h (List.append_assoc before skipped (v :: rest)).symm
  obtain rfl := relOf_injective (hentry.proper hvalid) (hentry'.proper hvalid) hentry.ne_nil
    hentry'.ne_nil (hrel.symm.trans hrel')
  obtain ⟨u, hu, hurel, hudir⟩ := habove p hp hne hproper
  have huvs : u ∈ before ++ (skipped ++ v :: rest) := by
    rcases List.mem_append.mp hu with hu | hu
    · exact List.mem_append_left _ hu
    · exact List.mem_append_right _ (List.mem_append_left _ hu)
  have hudirs : (u.rel, u.node, u.selected) ∈
      (pruneDirs (Plan.extend ⟨[], [], []⟩ (before ++ (skipped ++ v :: rest)))).dirs := by
    obtain ⟨t, ht, htrel, htype, hclear, -, hleads⟩ := (mem_planned_dirs hvalid h).mp hkept
    obtain ⟨t', ht', htrel', hclear', hiff⟩ := (mem_visits h).mp huvs
    obtain rfl := relOf_injective (hentry.proper hvalid) (ht.proper hvalid) hentry.ne_nil ht.ne_nil
      (hrel.symm.trans htrel)
    obtain rfl := relOf_injective ((hentry.proper hvalid).shorter hp) (ht'.proper hvalid) hne
      ht'.ne_nil (hurel.symm.trans htrel')
    refine (mem_planned_dirs hvalid h).mpr ⟨p, ht', hurel, hudir, hclear',
      hiff.trans (and_iff_right hclear').symm, .inr ?_⟩
    rcases hleads with hselected | ⟨deeper, m, hdeep, hunder, hshort, hselected⟩
    · exact ⟨trail, v.node, hentry, hp, hproper, hselected⟩
    · refine ⟨deeper, m, hdeep, hp.trans hunder, ?_, hselected⟩
      rintro rfl
      exact hproper (hp.eq_of_length_le hunder.length_le)
  rw [hdirs] at hudirs
  obtain ⟨u', hu', hsame⟩ := List.mem_filterMap.mp hudirs
  obtain ⟨hkeep, heq⟩ := Option.ite_none_right_eq_some.mp hsame
  obtain ⟨hr, hn, hs⟩ : u'.rel = u.rel ∧ u'.node = u.node ∧ u'.selected = u.selected := by
    simpa only [Option.some.injEq, Prod.mk.injEq] using heq
  obtain rfl : u' = u := by
    cases u'
    cases u
    exact Visit.mk.injEq .. ▸ ⟨hr, hn, hs⟩
  rcases List.mem_append.mp hu with hu | hu
  · exact ⟨_, List.mem_filterMap.mpr ⟨u', hu, hsame⟩, hurel⟩
  · rw [hskipped u' hu] at hsame
    cases hsame

theorem pruned_plans : Plans repo nodes includes excludes (pruneDirs (Plan.extend ⟨[], [], []⟩ vs)) := by
  have hleaf : ∀ (type : NodeType) (rel : String) (n : TreeFormat.Node),
      (rel, n) ∈ (vs.filter fun v => v.node.nodeType = type && v.selected).map
        (fun v => (v.rel, v.node)) ↔ ∃ trail, EntryIn repo nodes trail n ∧
          rel = relOf "" trail ∧ n.nodeType = type ∧ Selected includes excludes trail := by
    intro type rel n
    simp only [List.mem_map, List.mem_filter, Bool.and_eq_true, decide_eq_true_eq, Prod.mk.injEq]
    constructor
    · rintro ⟨v, ⟨hv, htype, hsel⟩, hrel, hn⟩
      obtain ⟨trail, hentry, hpath, hselected⟩ := (mem_selected h).mp ⟨v, hv, hrel, hn, hsel⟩
      exact ⟨trail, hentry, hpath, hn ▸ htype, hselected⟩
    · rintro ⟨trail, hentry, hpath, htype, hselected⟩
      obtain ⟨v, hv, hrel, hn, hsel⟩ := (mem_selected h).mpr ⟨trail, hentry, hpath, hselected⟩
      exact ⟨v, ⟨hv, hn ▸ htype, hsel⟩, hrel, hn⟩
  refine ⟨hleaf .file, hleaf .symlink, fun rel n selected => mem_planned_dirs hvalid h, ?_, ?_⟩
  · intro trail n hentry hselected p hp hne hproper
    obtain ⟨d, hd, hdir⟩ := hentry.above hp hne hproper
    have hclear : ¬ Covers excludes "" p := fun hcover => hselected.1 (hcover.mono hp)
    have hleads : ∃ deeper m, EntryIn repo nodes deeper m ∧ p <+: deeper ∧ p ≠ deeper ∧
        Selected includes excludes deeper := ⟨trail, n, hentry, hp, hproper, hselected⟩
    by_cases hown : Selected includes excludes p
    · exact ⟨d, true, (mem_planned_dirs hvalid h).mpr
        ⟨p, hd, rfl, hdir, hclear, iff_of_true rfl hown, .inr hleads⟩⟩
    · exact ⟨d, false, (mem_planned_dirs hvalid h).mpr
        ⟨p, hd, rfl, hdir, hclear, iff_of_false Bool.false_ne_true hown, .inr hleads⟩⟩
  · intro front rel n selected back hsplit trail hentry hrel p hp hne hproper
    exact pruned_parentsFirst hvalid h hsplit hentry hrel hp hne hproper

end Pruning

def Near (a b : BlobRead) : Prop :=
  a.entry.offset ≤ b.entry.end + mergeGap ∧ b.entry.offset ≤ a.entry.end + mergeGap

inductive Linked : List BlobRead → ℕ → Prop
  | one (r : BlobRead) : Linked [r] r.entry.end
  | more {group : List BlobRead} {stop : ℕ} {r : BlobRead} (h : Linked group stop)
      (hgap : r.entry.offset ≤ stop + mergeGap) : Linked (group ++ [r]) (max stop r.entry.end)

structure Grouped (reads : List BlobRead) (groups : List (List BlobRead) × ℕ) : Prop where
  flatten : groups.1.flatten = reads
  linked : ∀ g ∈ groups.1, ∃ stop, Linked g stop
  last : ∀ g, groups.1.getLast? = some g → Linked g groups.2

structure Reads (blobs : List BlobRead) (groups : List (List BlobRead)) : Prop where
  partition : groups.flatten.Perm blobs
  nonempty : ∀ g ∈ groups, g ≠ []
  contains : ∀ g ∈ groups, ∀ r ∈ g,
    (groupRange g).1 ≤ r.entry.offset ∧ r.entry.end ≤ (groupRange g).2
  slices : ∀ g ∈ groups, ∀ pack : List UInt8, (groupRange g).2 ≤ pack.length → ∀ r ∈ g,
    sliceOf (getRange pack (groupRange g).1 ((groupRange g).2 - (groupRange g).1))
      (groupRange g).1 r.entry = r.entry.sealedIn pack
  near : ∀ g ∈ groups, ∀ a ∈ g, ∀ b ∈ g,
    Relation.ReflTransGen (fun x y => x ∈ g ∧ y ∈ g ∧ Near x y) a b

section Grouping

variable {group reads : List BlobRead} {groups : List (List BlobRead) × ℕ} {stop : ℕ}
  {r a b : BlobRead}

theorem Near.symm (h : Near a b) : Near b a := ⟨h.2, h.1⟩

theorem Linked.ne_nil (h : Linked group stop) : group ≠ [] := by
  cases h with
  | one r => exact List.cons_ne_nil _ _
  | more h hgap => exact List.append_ne_nil_of_right_ne_nil _ (List.cons_ne_nil _ _)

theorem Linked.ends_last (h : Linked group stop) :
    (∃ f ∈ group, f.entry.end = stop) ∧ ∀ f ∈ group, f.entry.end ≤ stop := by
  induction h with
  | one r =>
      refine ⟨⟨r, List.mem_singleton_self r, rfl⟩, fun f hf => ?_⟩
      rw [List.mem_singleton.mp hf]
  | @more group stop r h hgap ih =>
      obtain ⟨⟨f, hf, hend⟩, hall⟩ := ih
      constructor
      · obtain hmax | hmax := max_choice stop r.entry.end
        · exact ⟨f, List.mem_append_left _ hf, hend.trans hmax.symm⟩
        · exact ⟨r, List.mem_append_right _ (List.mem_singleton_self r), hmax.symm⟩
      · intro g hg
        rcases List.mem_append.mp hg with hg | hg
        · exact (hall g hg).trans (le_max_left _ _)
        · rw [List.mem_singleton.mp hg]
          exact le_max_right _ _

theorem Linked.near (h : Linked group stop)
    (hsorted : group.Pairwise fun a b => a.entry.offset ≤ b.entry.offset)
    (ha : a ∈ group) (hb : b ∈ group) :
    Relation.ReflTransGen (fun x y => x ∈ group ∧ y ∈ group ∧ Near x y) a b := by
  induction h generalizing a b with
  | one r =>
      rw [List.mem_singleton.mp ha, List.mem_singleton.mp hb]
  | @more group stop r h hgap ih =>
      obtain ⟨hgroup, -, hlast⟩ := List.pairwise_append.mp hsorted
      have hwiden : ∀ {x y : BlobRead}, x ∈ group → y ∈ group →
          Relation.ReflTransGen (fun x y => x ∈ group ++ [r] ∧ y ∈ group ++ [r] ∧ Near x y) x y := by
        intro x y hx hy
        refine Relation.ReflTransGen.mono (fun c d hcd => ?_) _ _ (ih hgroup hx hy)
        exact ⟨List.mem_append_left _ hcd.1, List.mem_append_left _ hcd.2.1, hcd.2.2⟩
      obtain ⟨⟨f, hf, hend⟩, -⟩ := h.ends_last
      have hr : r ∈ group ++ [r] := List.mem_append_right _ (List.mem_singleton_self r)
      have hfr : Near f r := by
        have hle : f.entry.offset ≤ r.entry.offset := hlast f hf r (List.mem_singleton_self r)
        unfold Near Entry.end at *
        omega
      have hforth : (fun x y => x ∈ group ++ [r] ∧ y ∈ group ++ [r] ∧ Near x y) f r :=
        ⟨List.mem_append_left _ hf, hr, hfr⟩
      have hback : (fun x y => x ∈ group ++ [r] ∧ y ∈ group ++ [r] ∧ Near x y) r f :=
        ⟨hr, List.mem_append_left _ hf, hfr.symm⟩
      rcases List.mem_append.mp ha with ha | ha
      · rcases List.mem_append.mp hb with hb | hb
        · exact hwiden ha hb
        · rw [List.mem_singleton.mp hb]
          exact (hwiden ha hf).tail hforth
      · rw [List.mem_singleton.mp ha]
        rcases List.mem_append.mp hb with hb | hb
        · exact (hwiden hf hb).head hback
        · rw [List.mem_singleton.mp hb]

theorem Grouped.step (h : Grouped reads groups) : Grouped (reads ++ [r]) (groupRead groups r) := by
  unfold groupRead
  cases hlast : groups.1.getLast? with
  | none =>
      have hnil := List.getLast?_eq_none_iff.mp hlast
      have hreads := h.flatten
      rw [hnil, List.flatten_nil] at hreads
      refine ⟨by rw [← hreads]; rfl, ?_, ?_⟩
      · intro g hg
        rw [List.mem_singleton.mp hg]
        exact ⟨_, .one r⟩
      · intro g hg
        cases hg
        exact .one r
  | some group =>
      have hgroups : groups.1.dropLast ++ [group] = groups.1 := by
        obtain ⟨others, hothers⟩ := List.getLast?_eq_some_iff.mp hlast
        rw [hothers, List.dropLast_concat]
      have hlinked := h.last group hlast
      dsimp only
      split_ifs with hgap
      · refine ⟨?_, ?_, ?_⟩
        · dsimp only
          rw [List.flatten_append, ← h.flatten, ← hgroups, List.flatten_append,
            List.dropLast_concat]
          simp
        · intro g hg
          rcases List.mem_append.mp hg with hg | hg
          · exact h.linked g (List.dropLast_subset _ hg)
          · rw [List.mem_singleton.mp hg]
            exact ⟨_, hlinked.more hgap⟩
        · intro g hg
          rw [List.getLast?_concat] at hg
          cases hg
          exact hlinked.more hgap
      · refine ⟨?_, ?_, ?_⟩
        · dsimp only
          rw [List.flatten_append, h.flatten]
          rfl
        · intro g hg
          rcases List.mem_append.mp hg with hg | hg
          · exact h.linked g hg
          · rw [List.mem_singleton.mp hg]
            exact ⟨_, .one r⟩
        · intro g hg
          rw [List.getLast?_concat] at hg
          cases hg
          exact .one r

theorem grouped (reads : List BlobRead) : Grouped reads (reads.foldl groupRead ([], 0)) := by
  induction reads using List.reverseRecOn with
  | nil => exact ⟨rfl, nofun, nofun⟩
  | append_singleton reads r ih =>
      rw [List.foldl_append]
      exact ih.step

theorem le_foldl_max (l : List ℕ) (start : ℕ) :
    start ≤ l.foldl max start ∧ ∀ n ∈ l, n ≤ l.foldl max start := by
  induction l generalizing start with
  | nil => exact ⟨le_rfl, nofun⟩
  | cons n l ih =>
      obtain ⟨hstart, hall⟩ := ih (max start n)
      rw [List.foldl_cons, List.forall_mem_cons]
      exact ⟨(le_max_left _ _).trans hstart, (le_max_right _ _).trans hstart, hall⟩

theorem groupRange_contains (hsorted : group.Pairwise fun a b => a.entry.offset ≤ b.entry.offset)
    (hr : r ∈ group) :
    (groupRange group).1 ≤ r.entry.offset ∧ r.entry.end ≤ (groupRange group).2 := by
  constructor
  · obtain _ | ⟨first, rest⟩ := group
    · cases hr
    · rcases List.mem_cons.mp hr with rfl | hr
      · exact le_rfl
      · exact (List.pairwise_cons.mp hsorted).1 r hr
  · exact (le_foldl_max _ 0).2 _ (List.mem_map.mpr ⟨r, hr, rfl⟩)

theorem sliceOf_getRange {pack : List UInt8} {start stop : ℕ} {e : Entry} (hstart : start ≤ e.offset)
    (hstop : e.end ≤ stop) (hpack : stop ≤ pack.length) :
    sliceOf (getRange pack start (stop - start)) start e = e.sealedIn pack := by
  unfold Entry.end at hstop
  have hlength : (getRange pack start (stop - start)).length = stop - start := by
    rw [getRange, List.length_take, List.length_drop]
    omega
  unfold sliceOf Entry.sealedIn
  rw [if_neg (by omega), if_neg (by omega), if_pos (by unfold Entry.end; omega), getRange,
    List.drop_take, List.drop_drop, List.take_take]
  congr 2
  · omega
  · congr 1
    omega

theorem packReads_reads (blobs : List BlobRead) : Reads blobs (packReads blobs) := by
  have hgrouped := grouped (sortByKey (fun read => read.entry.offset) blobs)
  have hsorted : ∀ g ∈ packReads blobs, g.Pairwise fun a b => a.entry.offset ≤ b.entry.offset := by
    have hflat : ((packReads blobs).flatten).Pairwise fun a b => a.entry.offset ≤ b.entry.offset := by
      rw [packReads, groupReads, hgrouped.flatten]
      exact sortByKey_sorted
    exact (List.pairwise_flatten.mp hflat).1
  refine ⟨?_, ?_, ?_, ?_, ?_⟩
  · rw [packReads, groupReads, hgrouped.flatten]
    exact sortByKey_perm
  · intro g hg
    obtain ⟨stop, hlinked⟩ := hgrouped.linked g hg
    exact hlinked.ne_nil
  · exact fun g hg r hr => groupRange_contains (hsorted g hg) hr
  · intro g hg pack hpack r hr
    obtain ⟨hstart, hstop⟩ := groupRange_contains (hsorted g hg) hr
    exact sliceOf_getRange hstart hstop hpack
  · intro g hg a ha b hb
    obtain ⟨stop, hlinked⟩ := hgrouped.linked g hg
    exact hlinked.near (hsorted g hg) ha hb

end Grouping

section Restore

variable {globs : Globs} {repo : Repository} {debug : String → String} {patterns : List String}
  {m : PathMatcher}

theorem new_isEmpty (h : PathMatcher.new globs debug patterns = .ok m) :
    m.isEmpty = true ↔ patterns = [] := by
  unfold PathMatcher.new at h
  dsimp only at h
  split at h
  · cases h
  · split at h
    · cases h
    · cases h
      rw [PathMatcher.isEmpty, List.isEmpty_iff, List.map_eq_nil_iff]

end Restore

/-- A restore plans what is selected, with the directories above it, and reads each pack in ranges
that hold the blobs that are near one another. -/
theorem restore_planned (globs : Globs) (repo : Repository) (id : ObjectId)
    (includes excludes : List String) (hends : Ends repo id) :
    (∃ result least, (∀ fuel, least ≤ fuel →
        planRestore globs repo fuel id includes excludes = some result) ∧
      (∀ plan, result = .ok plan → ∃ inc exc tree,
        PathMatcher.new globs repo.serde.debug includes = .ok inc ∧
        PathMatcher.new globs repo.serde.debug excludes = .ok exc ∧
        (inc.isEmpty = true ↔ includes = []) ∧ repo.loadTree id = .ok tree ∧
        Plans repo tree.nodes inc exc plan) ∧
      ∀ e, result = .error e → PathMatcher.new globs repo.serde.debug includes = .error e ∨
        PathMatcher.new globs repo.serde.debug excludes = .error e ∨
        ∃ below, Beneath repo id below ∧ repo.loadTree below = .error e) ∧
    ∀ blobs, Reads blobs (packReads blobs) := by
  refine ⟨?_, packReads_reads⟩
  unfold planRestore
  cases hinc : PathMatcher.new globs repo.serde.debug includes with
  | error e =>
      refine ⟨.error e, 0, fun _ _ => rfl, nofun, ?_⟩
      rintro _ ⟨⟩
      exact .inl rfl
  | ok inc =>
      cases hexc : PathMatcher.new globs repo.serde.debug excludes with
      | error e =>
          refine ⟨.error e, 0, fun _ _ => rfl, nofun, ?_⟩
          rintro _ ⟨⟩
          exact .inr (.inl rfl)
      | ok exc =>
          obtain ⟨least, hleast⟩ := @planTree_ends inc exc repo id hends
          obtain ⟨r, hr⟩ := hleast "" inc.isEmpty ⟨[], [], []⟩
          refine ⟨r.map pruneDirs, least, ?_, ?_, ?_⟩
          · intro fuel hfuel
            dsimp only
            rw [planTree_mono hfuel hr, Option.map_some]
          · intro plan hplan
            cases r with
            | error e => cases hplan
            | ok walked =>
                cases hplan
                obtain ⟨tree, vs, htree, hvs, rfl⟩ := planTree_visits hr
                exact ⟨inc, exc, tree, rfl, rfl, new_isEmpty hinc, htree,
                  pruned_plans (loadTree_canonical htree).valid hvs⟩
          · intro e he
            cases r with
            | ok walked => cases he
            | error e' =>
                cases he
                exact .inr (.inr (planTree_error hr))

def plainGlobs : Globs := ⟨fun _ => none, fun patterns => .ok fun path => decide (path ∈ patterns)⟩

def linkRepository : Repository where
  plaintext := fun id =>
    if id = 1 then .ok linkAndFileJson else .error (.incomplete "no index lists the blob")
  serde := linkAndFileSerde

theorem restore_planned_link : ∃ fuel plan inc exc,
    planRestore plainGlobs linkRepository fuel 1 [] ["/b"] = some (.ok plan) ∧
      PathMatcher.new plainGlobs linkAndFileSerde.debug [] = .ok inc ∧
      PathMatcher.new plainGlobs linkAndFileSerde.debug ["/b"] = .ok exc ∧
      Plans linkRepository (Tree.new linkAndFile).nodes inc exc plan := by
  have htree : linkRepository.loadTree 1 = .ok (.new linkAndFile) :=
    decode_eq_ok.mpr ⟨linkAndFile_read, linkAndFile_canonical⟩
  have hflat : ∀ n ∈ (Tree.new linkAndFile).nodes, n.nodeType ≠ .dir := by decide
  have hends : Ends linkRepository 1 := by
    refine .mk fun tree hloaded n hn hdir => ?_
    cases htree.symm.trans hloaded
    exact absurd hdir (hflat n hn)
  obtain ⟨⟨result, least, hresult, hok, herror⟩, -⟩ :=
    restore_planned plainGlobs linkRepository 1 [] ["/b"] hends
  cases result with
  | error e =>
      rcases herror e rfl with h | h | ⟨below, hbelow, h⟩
      · cases h
      · cases h
      · cases hbelow with
        | self =>
            rw [htree] at h
            cases h
        | step hloaded hn hdir =>
            cases htree.symm.trans hloaded
            exact absurd hdir (hflat _ hn)
  | ok plan =>
      obtain ⟨inc, exc, tree, hinc, hexc, -, hloaded, hplans⟩ := hok plan rfl
      cases htree.symm.trans hloaded
      exact ⟨least, plan, inc, exc, hresult least le_rfl, hinc, hexc, hplans⟩

end FileMirror.Restorer
