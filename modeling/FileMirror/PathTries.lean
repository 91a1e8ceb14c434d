import FileMirror.ArchivedTrees

set_option autoImplicit false

namespace FileMirror

namespace Trie

variable {t u : Trie} {p q : List String} {name part : String}

def descend : Trie → List String → Option Trie
  | t, [] => some t
  | t, name :: rest => (t.children.lookup name).bind fun child => child.descend rest

def Ends (t : Trie) (path : List String) : Prop :=
  ∃ u, t.descend path = some u ∧ u.terminal = true

def Has (t : Trie) (path : List String) : Prop := (t.descend path).isSome = true

mutual

def Distinct : Trie → Prop
  | .node _ children => (children.map Prod.fst).Nodup ∧ DistinctAll children

def DistinctAll : List (String × Trie) → Prop
  | [] => True
  | (_, child) :: rest => Distinct child ∧ DistinctAll rest

end

theorem distinctAll_iff {l : List (String × Trie)} :
    DistinctAll l ↔ ∀ entry ∈ l, entry.2.Distinct := by
  induction l with
  | nil => simp [DistinctAll]
  | cons entry l ih =>
      obtain ⟨name, child⟩ := entry
      rw [DistinctAll, ih, List.forall_mem_cons]

theorem distinct_iff : t.Distinct ↔
    (t.children.map Prod.fst).Nodup ∧ ∀ entry ∈ t.children, entry.2.Distinct := by
  cases t with
  | node terminal children => rw [Distinct, distinctAll_iff, Trie.children]

theorem Distinct.child (h : t.Distinct) (hchild : t.children.lookup name = some u) :
    u.Distinct := by
  obtain ⟨hnames, hall⟩ := distinct_iff.mp h
  exact hall _ ((lookup_iff_mem hnames).mp hchild)

section Alter

variable {f : Trie → Trie} {l : List (String × Trie)}

theorem lookup_alterChild : (alterChild f part l).lookup name =
    if name = part then some (f ((l.lookup part).getD default)) else l.lookup name := by
  induction l with
  | nil =>
      rw [alterChild, lookup_cons]
      rfl
  | cons entry l ih =>
      obtain ⟨other, child⟩ := entry
      rw [alterChild]
      by_cases hpart : part = other
      · subst hpart
        rw [if_pos rfl, lookup_cons, lookup_cons, lookup_cons, if_pos rfl]
        split_ifs <;> rfl
      · rw [if_neg hpart, lookup_cons, lookup_cons, lookup_cons, ih, if_neg hpart]
        by_cases hname : name = other
        · rw [if_pos hname, if_pos hname, if_neg fun h => hpart (h.symm.trans hname)]
        · rw [if_neg hname, if_neg hname]

theorem keys_alterChild {key : String} :
    key ∈ (alterChild f part l).map Prod.fst ↔ key = part ∨ key ∈ l.map Prod.fst := by
  induction l with
  | nil => simp [alterChild]
  | cons entry l ih =>
      obtain ⟨other, child⟩ := entry
      rw [alterChild]
      by_cases hpart : part = other
      · subst hpart
        simp
      · rw [if_neg hpart, List.map_cons, List.map_cons, List.mem_cons, List.mem_cons, ih]
        exact or_left_comm

theorem nodup_alterChild (h : (l.map Prod.fst).Nodup) :
    ((alterChild f part l).map Prod.fst).Nodup := by
  induction l with
  | nil => simp [alterChild]
  | cons entry l ih =>
      obtain ⟨other, child⟩ := entry
      rw [List.map_cons, List.nodup_cons] at h
      rw [alterChild]
      by_cases hpart : part = other
      · rw [if_pos hpart, List.map_cons, List.nodup_cons]
        exact h
      · rw [if_neg hpart, List.map_cons, List.nodup_cons, keys_alterChild, not_or]
        exact ⟨⟨Ne.symm hpart, h.1⟩, ih h.2⟩

theorem mem_alterChild {entry : String × Trie} (h : entry ∈ alterChild f part l) :
    entry ∈ l ∨ entry.2 = f default ∨ ∃ child ∈ l, entry.2 = f child.2 := by
  induction l with
  | nil =>
      rw [alterChild, List.mem_singleton] at h
      exact .inr (.inl (congrArg Prod.snd h))
  | cons other l ih =>
      rw [alterChild] at h
      split_ifs at h
      · obtain rfl | h := List.mem_cons.mp h
        · exact .inr (.inr ⟨other, List.mem_cons_self .., rfl⟩)
        · exact .inl (List.mem_cons_of_mem _ h)
      · obtain rfl | h := List.mem_cons.mp h
        · exact .inl (List.mem_cons_self ..)
        · obtain h | h | ⟨child, hchild, h⟩ := ih h
          · exact .inl (List.mem_cons_of_mem _ h)
          · exact .inr (.inl h)
          · exact .inr (.inr ⟨child, List.mem_cons_of_mem _ hchild, h⟩)

end Alter

theorem distinct_default : default.Distinct := ⟨List.nodup_nil, trivial⟩

theorem distinct_insert (h : t.Distinct) : (insert p t).Distinct := by
  induction p generalizing t with
  | nil =>
      obtain ⟨hnames, hall⟩ := distinct_iff.mp h
      exact distinct_iff.mpr ⟨hnames, hall⟩
  | cons part rest ih =>
      obtain ⟨hnames, hall⟩ := distinct_iff.mp h
      refine distinct_iff.mpr ⟨nodup_alterChild hnames, ?_⟩
      intro entry hentry
      obtain hold | hnew | ⟨child, hchild, hnew⟩ := mem_alterChild hentry
      · exact hall entry hold
      · rw [hnew]
        exact ih distinct_default
      · rw [hnew]
        exact ih (hall child hchild)

theorem descend_insert_cons {rest : List String} :
    (insert (part :: rest) t).descend (name :: q) =
      if name = part then (insert rest ((t.children.lookup part).getD default)).descend q
      else t.descend (name :: q) := by
  rw [insert, descend, children, lookup_alterChild]
  split_ifs with hname
  · rfl
  · rfl

theorem ends_default : ¬ default.Ends q := by
  rintro ⟨u, hu, hterminal⟩
  cases q with
  | nil =>
      cases hu
      cases hterminal
  | cons name q => cases hu

theorem has_default : default.Has q ↔ q = [] := by
  cases q with
  | nil => simp [Has, descend]
  | cons name q => simp [Has, descend, default, children]

theorem ends_getD : ((t.children.lookup part).getD default).Ends q ↔ t.Ends (part :: q) := by
  unfold Ends
  rw [descend]
  obtain hnone | ⟨child, hchild⟩ := Option.eq_none_or_eq_some (t.children.lookup part)
  · rw [hnone]
    constructor
    · exact fun hends => absurd hends ends_default
    · rintro ⟨u, ⟨⟩, _⟩
  · rw [hchild]
    rfl

theorem has_getD :
    ((t.children.lookup part).getD default).Has q ↔ t.Has (part :: q) ∨ q = [] := by
  unfold Has
  rw [descend]
  obtain hnone | ⟨child, hchild⟩ := Option.eq_none_or_eq_some (t.children.lookup part)
  · rw [hnone]
    change default.Has q ↔ _
    rw [has_default]
    simp
  · rw [hchild]
    constructor
    · exact .inl
    · rintro (h | rfl)
      · exact h
      · rfl

theorem ends_insert : (insert p t).Ends q ↔ t.Ends q ∨ q = p := by
  induction p generalizing t q with
  | nil =>
      cases q with
      | nil => simp [insert, Ends, descend, terminal]
      | cons name q => simp [insert, Ends, descend, children]
  | cons part rest ih =>
      cases q with
      | nil => simp [insert, Ends, descend, terminal]
      | cons name q =>
          unfold Ends
          rw [descend_insert_cons]
          split_ifs with hname
          · subst hname
            change (insert rest _).Ends q ↔ t.Ends (name :: q) ∨ _
            rw [ih, ends_getD, List.cons.injEq]
            simp
          · simp [hname]

theorem has_insert : (insert p t).Has q ↔ t.Has q ∨ q <+: p := by
  induction p generalizing t q with
  | nil =>
      cases q with
      | nil => simp [Has, descend]
      | cons name q => simp [insert, Has, descend, children]
  | cons part rest ih =>
      cases q with
      | nil => simp [Has, descend]
      | cons name q =>
          unfold Has
          rw [descend_insert_cons]
          split_ifs with hname
          · subst hname
            change (insert rest _).Has q ↔ t.Has (name :: q) ∨ _
            rw [ih, has_getD, List.cons_prefix_cons, or_assoc]
            have hnil : q = [] → q <+: rest := by
              rintro rfl
              exact List.nil_prefix
            simp only [true_and]
            constructor
            · rintro (h | h | h)
              · exact .inl h
              · exact .inr (hnil h)
              · exact .inr h
            · rintro (h | h)
              · exact .inl h
              · exact .inr (.inr h)
          · rw [List.cons_prefix_cons]
            simp [hname]

variable {paths : List (List String)}

theorem foldl_insert (paths : List (List String)) (ht : t.Distinct) :
    (paths.foldl (fun trie path => trie.insert path) t).Distinct ∧
      (∀ q, (paths.foldl (fun trie path => trie.insert path) t).Ends q ↔
        t.Ends q ∨ q ∈ paths) ∧
      ∀ q, (paths.foldl (fun trie path => trie.insert path) t).Has q ↔
        t.Has q ∨ ∃ path ∈ paths, q <+: path := by
  induction paths generalizing t with
  | nil => simp [ht]
  | cons path paths ih =>
      obtain ⟨hdistinct, hends, hhas⟩ := ih (distinct_insert ht)
      refine ⟨hdistinct, fun q => ?_, fun q => ?_⟩
      · rw [List.foldl_cons, hends, ends_insert, List.mem_cons, or_assoc]
      · rw [List.foldl_cons, hhas, has_insert, List.exists_mem_cons_iff, or_assoc]

theorem distinct_buildTrie : (buildTrie paths).Distinct := (foldl_insert paths distinct_default).1

theorem ends_buildTrie : (buildTrie paths).Ends q ↔ q ∈ paths := by
  have h := (foldl_insert paths distinct_default).2.1 q
  rw [buildTrie, h]
  exact or_iff_right ends_default

theorem has_buildTrie : (buildTrie paths).Has q ↔ q = [] ∨ ∃ path ∈ paths, q <+: path := by
  have h := (foldl_insert paths distinct_default).2.2 q
  rw [buildTrie, h, has_default]

end Trie

end FileMirror
