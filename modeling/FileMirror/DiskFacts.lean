import FileMirror.Disk

set_option autoImplicit false

namespace FileMirror

def Held.bare : Held → Held
  | .dir _ => .dir ⟨0, 0, 0, 0, 0⟩
  | h => h

namespace Disk

variable {d d' d'' : Disk} {path x p q dir : List String} {name : String} {h : Held} {now : ℤ}
  {info : FileInfo} {i : ℕ}

def IsDir (d : Disk) (p : List String) : Prop := ∃ info, d.held p = some (.dir info)

def Plain (path : List String) : Prop := ∀ name ∈ path, name ≠ "." ∧ name ≠ ".."

theorem follow_open {followLast : Bool} {again : List String → List String → Except SysError (List String)}
    (rest : List String) (hplain : Plain rest) (hopen : ∀ q, q <+: rest → q ≠ [] → d.IsDir (p ++ q)) :
    d.follow followLast again rest p = .ok (p ++ rest) := by
  induction rest generalizing p with
  | nil => rw [follow, List.append_nil]
  | cons name rest ih =>
      obtain ⟨⟨hdot, hdots⟩, hrest⟩ := List.forall_mem_cons.mp hplain
      obtain ⟨info, hdir⟩ := hopen [name] (List.prefix_append [name] rest) (List.cons_ne_nil _ _)
      rw [follow, if_neg hdot, if_neg hdots, hdir]
      dsimp only
      rw [ih hrest, List.append_assoc]
      · rfl
      · intro q hq hne
        rw [List.append_assoc]
        exact hopen ([name] ++ q) ((List.prefix_append_right_inj [name]).mpr hq) (by simp)

theorem follow_last_open {again : List String → List String → Except SysError (List String)}
    (rest : List String) (hplain : Plain (rest ++ [name]))
    (hopen : ∀ q, q <+: rest → q ≠ [] → d.IsDir (p ++ q)) :
    d.follow false again (rest ++ [name]) p =
      if (d.held (p ++ (rest ++ [name]))).isSome then .ok (p ++ (rest ++ [name]))
      else .error .notFound := by
  induction rest generalizing p with
  | nil =>
      obtain ⟨hdot, hdots⟩ := hplain name (by simp)
      rw [List.nil_append, follow, if_neg hdot, if_neg hdots]
      cases hheld : d.held (p ++ [name]) with
      | none => simp
      | some h =>
          cases h with
          | dir info => simp [follow]
          | _ => simp
  | cons first rest ih =>
      obtain ⟨⟨hdot, hdots⟩, hrest⟩ := List.forall_mem_cons.mp hplain
      obtain ⟨info, hdir⟩ := hopen [first] (List.prefix_append [first] rest) (List.cons_ne_nil _ _)
      rw [List.cons_append, follow, if_neg hdot, if_neg hdots, hdir]
      dsimp only
      rw [ih hrest, List.append_assoc]
      · rfl
      · intro q hq hne
        rw [List.append_assoc]
        exact hopen ([first] ++ q) ((List.prefix_append_right_inj [first]).mpr hq) (by simp)

theorem follow_append {followLast : Bool} {first rest : List String}
    {again again' : List String → List String → Except SysError (List String)}
    (hagain : ∀ names from_, again names from_ = .ok q →
      ∃ links, again' (names ++ rest) from_ = d.resolve followLast links rest q)
    (hself : ∃ links, ∀ from_, d.follow followLast again' rest from_ =
      d.resolve followLast links rest from_)
    (hrest : rest ≠ [] ∨ followLast = true) (hq : d.IsDir q)
    (h : d.follow true again first p = .ok q) :
    ∃ links, d.follow followLast again' (first ++ rest) p = d.resolve followLast links rest q := by
  induction first generalizing p with
  | nil =>
      rw [follow] at h
      cases h
      obtain ⟨links, hlinks⟩ := hself
      exact ⟨links, hlinks _⟩
  | cons name first ih =>
      rw [follow] at h
      rw [List.cons_append, follow]
      by_cases hdot : name = "."
      · rw [if_pos hdot] at h ⊢
        exact ih h
      rw [if_neg hdot] at h ⊢
      by_cases hdots : name = ".."
      · rw [if_pos hdots] at h ⊢
        exact ih h
      rw [if_neg hdots] at h ⊢
      cases hheld : d.held (p ++ [name]) with
      | none =>
          rw [hheld] at h
          cases h
      | some entry =>
          rw [hheld] at h
          cases entry with
          | dir info => exact ih h
          | symlink target =>
              have hgo : ¬ (first ++ rest = [] ∧ followLast = false) := by
                rintro ⟨hnil, hlast⟩
                rcases hrest with hrest | hrest
                · exact hrest (List.append_eq_nil_iff.mp hnil).2
                · rw [hrest] at hlast
                  cases hlast
              simp only [Bool.true_eq_false, and_false, if_false] at h
              simp only [if_neg hgo]
              rw [← List.append_assoc]
              exact hagain _ _ h
          | _ =>
              dsimp only at h
              split_ifs at h
              cases h
              obtain ⟨info, hinfo⟩ := hq
              rw [hheld] at hinfo
              cases hinfo

theorem resolve_append {followLast : Bool} {first rest : List String} {links : ℕ}
    (hrest : rest ≠ [] ∨ followLast = true) (hq : d.IsDir q)
    (h : d.resolve true links first p = .ok q) :
    ∃ left, d.resolve followLast links (first ++ rest) p = d.resolve followLast left rest q := by
  induction links generalizing first p with
  | zero => exact follow_append (fun _ _ hlost => by cases hlost) ⟨0, fun _ => rfl⟩ hrest hq h
  | succ links ih => exact follow_append (fun _ _ => ih) ⟨links + 1, fun _ => rfl⟩ hrest hq h

theorem resolve_open {followLast : Bool} {links : ℕ} {rest : List String} (hplain : Plain rest)
    (hopen : ∀ q, q <+: rest → q ≠ [] → d.IsDir (p ++ q)) :
    d.resolve followLast links rest p = .ok (p ++ rest) := by
  cases links with
  | zero => exact follow_open rest hplain hopen
  | succ links => exact follow_open rest hplain hopen

theorem resolve_last_open {links : ℕ} {rest : List String} (hplain : Plain (rest ++ [name]))
    (hopen : ∀ q, q <+: rest → q ≠ [] → d.IsDir (p ++ q)) :
    d.resolve false links (rest ++ [name]) p =
      if (d.held (p ++ (rest ++ [name]))).isSome then .ok (p ++ (rest ++ [name]))
      else .error .notFound := by
  cases links with
  | zero => exact follow_last_open rest hplain hopen
  | succ links => exact follow_last_open rest hplain hopen

structure Leads (d : Disk) (path x : List String) : Prop where
  proper : x ≠ []
  last : path.getLast? = x.getLast?
  place : d.place path = if (d.held x).isSome then .ok x else .error .notFound
  real : d.IsDir x → d.canonicalize path = .ok x
  parent : d.canonicalize path.dropLast = .ok x.dropLast
  parentDir : d.IsDir x.dropLast

theorem leads_of_open {target base rel : List String} (htarget : d.canonicalize target = .ok base)
    (hplain : Plain rel) (hne : rel ≠ [])
    (hopen : ∀ q, q <+: rel → q ≠ rel → d.IsDir (base ++ q)) :
    d.Leads (target ++ rel) (base ++ rel) := by
  have hbase : d.IsDir base := by
    have hroot := hopen [] List.nil_prefix hne.symm
    rwa [List.append_nil] at hroot
  have hrel := List.dropLast_append_getLast hne
  have hshort : ∀ q, q <+: rel.dropLast → q <+: rel ∧ q ≠ rel := by
    intro q hq
    have hle := hq.length_le
    have hpos := List.length_pos_iff.mpr hne
    rw [List.length_dropLast] at hle
    refine ⟨hq.trans (List.dropLast_prefix rel), ?_⟩
    rintro rfl
    omega
  have habove : ∀ q, q <+: rel.dropLast → q ≠ [] → d.IsDir (base ++ q) := fun q hq _ =>
    hopen q (hshort q hq).1 (hshort q hq).2
  refine ⟨List.append_ne_nil_of_right_ne_nil _ hne, ?_, ?_, ?_, ?_, ?_⟩
  · rw [List.getLast?_append_of_ne_nil _ hne, List.getLast?_append_of_ne_nil _ hne]
  · obtain ⟨links, hlinks⟩ := @resolve_append d [] base false target rel _ (.inl hne) hbase htarget
    rw [Disk.place, hlinks, ← hrel]
    exact resolve_last_open (by rwa [hrel]) habove
  · intro hdir
    obtain ⟨links, hlinks⟩ := @resolve_append d [] base true target rel _ (.inr rfl) hbase htarget
    rw [canonicalize, hlinks]
    refine resolve_open hplain fun q hq _ => ?_
    by_cases hall : q = rel
    · rwa [hall]
    · exact hopen q hq hall
  · rw [List.dropLast_append_of_ne_nil hne, List.dropLast_append_of_ne_nil hne]
    obtain ⟨links, hlinks⟩ :=
      @resolve_append d [] base true target rel.dropLast _ (.inr rfl) hbase htarget
    rw [canonicalize, hlinks]
    exact resolve_open (fun name hname => hplain name (List.dropLast_subset rel hname)) habove
  · rw [List.dropLast_append_of_ne_nil hne]
    by_cases hnil : rel.dropLast = []
    · rwa [hnil, List.append_nil]
    · exact habove _ List.prefix_rfl hnil

section Places

variable (hx : d.Leads path x)

include hx

theorem Leads.lstat : d.lstat path = (d.held x).elim (.error .notFound) .ok := by
  unfold Disk.lstat
  rw [hx.place]
  cases hheld : d.held x with
  | none => simp
  | some h => simp [hheld]

theorem Leads.room : d.room path =
    if (d.held x).isSome then .error .alreadyExists else .ok x := by
  have hlast : path.getLast? = some (x.getLast hx.proper) := by
    rw [hx.last, List.getLast?_eq_some_getLast hx.proper]
  obtain ⟨info, hdir⟩ := hx.parentDir
  unfold Disk.room
  simp only [hlast, hx.parent, hdir, List.dropLast_append_getLast hx.proper]

end Places

/-- Around one place: elsewhere everything is as before, but for what is recorded of the directory
above; what lies beneath may be gone; and the inodes of other files are as they were. `sources` are
the places whose file may have become that of the place. Where nothing is replaced, what there is
stays. -/
structure Around (replaces : Bool) (x : List String) (sources : List (List String)) (d d' : Disk) :
    Prop where
  far : ∀ p, ¬ x <+: p → p ≠ x.dropLast → d'.held p = d.held p
  near : (d'.held x.dropLast).map Held.bare = (d.held x.dropLast).map Held.bare
  beneath : ∀ p, x <+: p → p ≠ x → d'.held p = d.held p ∨ d'.held p = none
  linked : ∀ i, d'.held x = some (.file i) → i < d.next →
    d.held x = some (.file i) ∨ ∃ q ∈ sources, d.held q = some (.file i)
  kept : replaces = false → ∀ p, d.held p ≠ none →
    (d'.held p).map Held.bare = (d.held p).map Held.bare
  inodes : ∀ i < d.next, replaces = false ∨ d.held x ≠ some (.file i) → d'.inodes i = d.inodes i
  next : d.next ≤ d'.next

variable {sources : List (List String)} {replaces : Bool}

theorem not_prefix_dropLast (hx : x ≠ []) : ¬ x <+: x.dropLast := by
  intro hprefix
  have hle := hprefix.length_le
  have hpos := List.length_pos_iff.mpr hx
  rw [List.length_dropLast] at hle
  omega

theorem ne_dropLast (hx : x ≠ []) : x ≠ x.dropLast := by
  intro heq
  have hlen := congrArg List.length heq
  have hpos := List.length_pos_iff.mpr hx
  rw [List.length_dropLast] at hlen
  omega

theorem bare_eq_file {o : Option Held} : o.map Held.bare = some (.file i) ↔ o = some (.file i) := by
  cases o with
  | none => simp
  | some h => cases h <;> simp [Held.bare]

theorem bare_eq_symlink {o : Option Held} {target : String} :
    o.map Held.bare = some (.symlink target) ↔ o = some (.symlink target) := by
  cases o with
  | none => simp
  | some h => cases h <;> simp [Held.bare]

theorem isDir_iff : d.IsDir p ↔ (d.held p).map Held.bare = some (.dir ⟨0, 0, 0, 0, 0⟩) := by
  unfold IsDir
  cases d.held p with
  | none => simp
  | some h => cases h <;> simp [Held.bare]

theorem Around.refl : Around replaces x sources d d where
  far _ _ _ := rfl
  near := rfl
  beneath _ _ _ := .inl rfl
  linked _ h _ := .inl h
  kept _ _ _ := rfl
  inodes _ _ _ := rfl
  next := le_rfl

theorem Around.held (h : Around replaces x sources d d') (hp : ¬ x <+: p) :
    (d'.held p).map Held.bare = (d.held p).map Held.bare := by
  by_cases hparent : p = x.dropLast
  · rw [hparent, h.near]
  · rw [h.far p hp hparent]

theorem Around.file (h : Around replaces x sources d d') (hp : ¬ x <+: p) :
    d'.held p = some (.file i) ↔ d.held p = some (.file i) := by
  rw [← bare_eq_file, h.held hp, bare_eq_file]

theorem Around.isDir (h : Around replaces x sources d d') (hp : ¬ x <+: p) : d'.IsDir p ↔ d.IsDir p := by
  rw [isDir_iff, isDir_iff, h.held hp]

theorem Around.trans (h : Around replaces x [] d d') (h' : Around replaces x sources d' d'')
    (hsources : ∀ q ∈ sources, ¬ x <+: q) : Around replaces x sources d d'' where
  far p hp hne := (h'.far p hp hne).trans (h.far p hp hne)
  near := h'.near.trans h.near
  beneath p hp hne := by
    rcases h'.beneath p hp hne with hsame | hgone
    · rw [hsame]
      exact h.beneath p hp hne
    · exact .inr hgone
  linked i hi hlt := by
    rcases h'.linked i hi (hlt.trans_le h.next) with hbefore | ⟨q, hq, hqi⟩
    · rcases h.linked i hbefore hlt with hfirst | ⟨q, hq, -⟩
      · exact .inl hfirst
      · cases hq
    · exact .inr ⟨q, hq, (h.file (hsources q hq)).mp hqi⟩
  kept hover p hp := by
    have hfirst := h.kept hover p hp
    have hthere : d'.held p ≠ none := by
      intro hnone
      rw [hnone] at hfirst
      exact hp (Option.map_eq_none_iff.mp hfirst.symm)
    exact (h'.kept hover p hthere).trans hfirst
  inodes i hlt hi := by
    have hbetween : replaces = false ∨ d'.held x ≠ some (.file i) := by
      refine hi.imp_right fun hne hbefore => ?_
      rcases h.linked i hbefore hlt with hfirst | ⟨q, hq, -⟩
      · exact hne hfirst
      · cases hq
    rw [h'.inodes i (hlt.trans_le h.next) hbetween, h.inodes i hlt hi]
  next := h.next.trans h'.next

section Changes

theorem held_put {hh : ∀ i, h = .file i → i < d.next} :
    (d.put x h hh).held p = if p = x then some h else d.held p := rfl

theorem held_erase {gone : List String → Bool} :
    (d.erase gone).held p = if gone p then none else d.held p := rfl

theorem held_touch_other (hp : p ≠ dir) : (d.touch dir now).held p = d.held p := if_neg hp

theorem inodes_setInode {inode : Inode} : (d.setInode i inode).inodes i = inode :=
  Function.update_self _ _ _

theorem inodes_setInode_other {inode : Inode} {j : ℕ} (hj : j ≠ i) :
    (d.setInode i inode).inodes j = d.inodes j := Function.update_of_ne hj _ _

variable {f : FileInfo → FileInfo}

theorem bare_alterDir : ((d.alterDir x f).held p).map Held.bare = (d.held p).map Held.bare := by
  unfold alterDir
  dsimp only
  split_ifs
  · rw [Option.map_map]
    congr 1
    funext h
    cases h <;> rfl
  · rfl

theorem Around.touched (haround : Around replaces x sources d d') (hx : x ≠ []) :
    Around replaces x sources d (d'.touch x.dropLast now) where
  far p hp hne := (held_touch_other hne).trans (haround.far p hp hne)
  near := bare_alterDir.trans haround.near
  beneath p hp hne := by
    have hparent : p ≠ x.dropLast := by
      rintro rfl
      exact not_prefix_dropLast hx hp
    rw [held_touch_other hparent]
    exact haround.beneath p hp hne
  linked i hi := by
    rw [held_touch_other (ne_dropLast hx)] at hi
    exact haround.linked i hi
  kept hover p hp := bare_alterDir.trans (haround.kept hover p hp)
  inodes := haround.inodes
  next := haround.next

theorem around_put {hh : ∀ i, h = .file i → i < d.next} (hx : x ≠ []) (hfree : d.held x = none)
    (hfile : ∀ i, h = .file i → ∃ q ∈ sources, d.held q = some (.file i)) :
    Around replaces x sources d (d.put x h hh) := by
  have helse : ∀ p, p ≠ x → (d.put x h hh).held p = d.held p := fun p hp => if_neg hp
  refine ⟨?_, by rw [helse _ (ne_dropLast hx).symm], ?_, ?_, ?_, fun _ _ _ => rfl, le_rfl⟩
  · intro p hp _
    refine helse p ?_
    rintro rfl
    exact hp List.prefix_rfl
  · exact fun p _ hne => .inl (helse p hne)
  · intro i hi _
    rw [held_put, if_pos rfl, Option.some.injEq] at hi
    exact .inr (hfile i hi)
  · intro _ p hp
    rw [helse p]
    rintro rfl
    exact hp hfree

theorem around_erase {gone : List String → Bool} (hgone : ∀ p, gone p = true → x <+: p)
    (hx : x ≠ []) (hover : replaces = true) : Around replaces x sources d (d.erase gone) := by
  have hkept : ∀ p, ¬ x <+: p → (d.erase gone).held p = d.held p := fun p hp =>
    if_neg fun h => hp (hgone p h)
  refine ⟨fun p hp _ => hkept p hp, by rw [hkept _ (not_prefix_dropLast hx)], ?_, ?_, ?_,
    fun _ _ _ => rfl, le_rfl⟩
  · intro p _ _
    rw [held_erase]
    split_ifs
    · exact .inr rfl
    · exact .inl rfl
  · intro i hi _
    rw [held_erase] at hi
    split_ifs at hi
    exact .inl hi
  · intro hnot
    rw [hover] at hnot
    cases hnot

theorem Around.setInode {inode : Inode} (haround : Around replaces x sources d d')
    (hi : d.next ≤ i ∨ replaces = true ∧ d.held x = some (.file i)) :
    Around replaces x sources d (d'.setInode i inode) where
  far := haround.far
  near := haround.near
  beneath := haround.beneath
  linked := haround.linked
  kept := haround.kept
  inodes j hlt hj := by
    rw [← haround.inodes j hlt hj]
    refine inodes_setInode_other ?_
    rintro rfl
    rcases hi with hfresh | ⟨hover, hheld⟩
    · omega
    · rcases hj with hnot | hne
      · rw [hover] at hnot
        cases hnot
      · exact hne hheld
  next := haround.next

theorem around_addFile (hx : x ≠ []) (hfree : d.held x = none) :
    Around replaces x sources d (d.addFile x now) := by
  have helse : ∀ p, p ≠ x → (d.addFile x now).held p = d.held p := fun p hp => if_neg hp
  refine ⟨?_, by rw [helse _ (ne_dropLast hx).symm], ?_, ?_, ?_, ?_, Nat.le_succ _⟩
  · intro p hp _
    refine helse p ?_
    rintro rfl
    exact hp List.prefix_rfl
  · exact fun p _ hne => .inl (helse p hne)
  · intro i hi hlt
    rw [addFile, held_put, if_pos rfl, Option.some.injEq, Held.file.injEq] at hi
    omega
  · intro _ p hp
    rw [helse p]
    rintro rfl
    exact hp hfree
  · intro i hlt _
    exact Function.update_of_ne (Nat.ne_of_lt hlt) _ _

/-- Nothing comes or goes: what the place holds is changed, or what is recorded of it. -/
structure Alters (x : List String) (d d' : Disk) : Prop where
  held : ∀ p, p ≠ x → d'.held p = d.held p
  bare : (d'.held x).map Held.bare = (d.held x).map Held.bare
  inodes : ∀ i, d.held x ≠ some (.file i) → d'.inodes i = d.inodes i
  next : d'.next = d.next

theorem Alters.refl : Alters x d d := ⟨fun _ _ => rfl, rfl, fun _ _ => rfl, rfl⟩

theorem Alters.bare_all (h : Alters x d d') (p : List String) :
    (d'.held p).map Held.bare = (d.held p).map Held.bare := by
  by_cases hp : p = x
  · rw [hp, h.bare]
  · rw [h.held p hp]

theorem Alters.file (h : Alters x d d') : d'.held p = some (.file i) ↔ d.held p = some (.file i) := by
  rw [← bare_eq_file, h.bare_all, bare_eq_file]

theorem Alters.isDir (h : Alters x d d') : d'.IsDir p ↔ d.IsDir p := by
  rw [isDir_iff, isDir_iff, h.bare_all]

theorem Alters.trans (h : Alters x d d') (h' : Alters x d' d'') : Alters x d d'' where
  held p hp := (h'.held p hp).trans (h.held p hp)
  bare := h'.bare.trans h.bare
  inodes i hi := (h'.inodes i (fun hheld => hi (h.file.mp hheld))).trans (h.inodes i hi)
  next := h'.next.trans h.next

theorem alters_setInode {inode : Inode} (hx : d.held x = some (.file i)) :
    Alters x d (d.setInode i inode) where
  held _ _ := rfl
  bare := rfl
  inodes j hj := by
    refine inodes_setInode_other ?_
    rintro rfl
    exact hj hx
  next := rfl

theorem alters_alterDir : Alters x d (d.alterDir x f) where
  held _ hp := if_neg hp
  bare := bare_alterDir
  inodes _ _ := rfl
  next := rfl

def At (d : Disk) (x : List String) : Handle → Prop
  | .dir p => p = x ∧ d.IsDir x
  | .file i => d.held x = some (.file i)

theorem alters_alter {handle : Handle} (hat : d.At x handle) : Alters x d (d.alter f handle) := by
  cases handle with
  | dir p =>
      obtain ⟨rfl, -⟩ := hat
      exact alters_alterDir
  | file i => exact alters_setInode hat

theorem Alters.at {handle : Handle} (h : Alters x d d') (hat : d.At x handle) : d'.At x handle := by
  cases handle with
  | dir p => exact ⟨hat.1, h.isDir.mpr hat.2⟩
  | file i => exact h.file.mpr hat

end Changes

section Calls

variable {source : List String}

theorem mkdir_leads (hx : d.Leads path x) (hfree : d.held x = none) :
    ∃ d', d.mkdir path now = .ok d' ∧ d'.IsDir x ∧ Around replaces x [] d d' ∧
      d'.inodes = d.inodes := by
  have hroom : d.room path = .ok x := by
    rw [hx.room, hfree]
    rfl
  have hmade : d.mkdir path now =
      .ok ((d.put x (.dir (d.newInfo 493 now)) (by simp)).touch x.dropLast now) := by
    rw [mkdir, hroom]
  refine ⟨_, hmade, ?_, ?_, rfl⟩
  · rw [isDir_iff, touch, bare_alterDir, held_put, if_pos rfl]
    rfl
  · exact (around_put hx.proper hfree (by simp)).touched hx.proper

theorem symlink_leads {target : String} (hx : d.Leads path x) (hfree : d.held x = none) :
    ∃ d', d.symlink target path now = .ok d' ∧ d'.held x = some (.symlink target) ∧
      Around replaces x [] d d' ∧ d'.inodes = d.inodes := by
  have hroom : d.room path = .ok x := by
    rw [hx.room, hfree]
    rfl
  have hmade : d.symlink target path now =
      .ok ((d.put x (.symlink target) (by simp)).touch x.dropLast now) := by
    rw [symlink, hroom]
  refine ⟨_, hmade, ?_, ?_, rfl⟩
  · rw [held_touch_other (ne_dropLast hx.proper), held_put, if_pos rfl]
  · exact (around_put hx.proper hfree (by simp)).touched hx.proper

theorem openNew_leads (hx : d.Leads path x) (hfree : d.held x = none) :
    ∃ d', d.openNew path now = .ok (d.next, d') ∧ d'.held x = some (.file d.next) ∧
      (d'.inodes d.next).bytes = [] ∧ Around replaces x [] d d' := by
  have hroom : d.room path = .ok x := by
    rw [hx.room, hfree]
    rfl
  have hmade : d.openNew path now = .ok (d.next, (d.addFile x now).touch x.dropLast now) := by
    rw [openNew, hroom]
  refine ⟨_, hmade, ?_, ?_, ?_⟩
  · rw [held_touch_other (ne_dropLast hx.proper), addFile, held_put, if_pos rfl]
  · change (Function.update d.inodes d.next _ d.next).bytes = []
    rw [Function.update_self]
  · exact (around_addFile hx.proper hfree).touched hx.proper

theorem openNew_taken (hx : d.Leads path x) (htaken : d.held x ≠ none) :
    d.openNew path now = .error .alreadyExists := by
  rw [openNew, hx.room, if_pos (Option.isSome_iff_ne_none.mpr htaken)]

theorem openWrite_leads (hx : d.Leads path x) (hheld : d.held x = some (.file i)) :
    d.openWrite path = .ok i := by
  rw [openWrite, hx.lstat, hheld]
  rfl

theorem openTruncate_free (hx : d.Leads path x) (hfree : d.held x = none) :
    d.openTruncate path now = d.openNew path now := by
  have hmissing : d.openWrite path = .error .notFound := by
    rw [openWrite, hx.lstat, hfree]
    rfl
  rw [openTruncate, hmissing]

theorem openTruncate_file (hx : d.Leads path x) (hheld : d.held x = some (.file i)) :
    d.openTruncate path now =
      .ok (i, d.setInode i ⟨[], { (d.inodes i).info with mtime := now }⟩) := by
  rw [openTruncate, openWrite_leads hx hheld]

theorem openTruncate_taken (hx : d.Leads path x) (htaken : d.held x ≠ none)
    (hother : ∀ i, d.held x ≠ some (.file i)) : ∃ e, d.openTruncate path now = .error e := by
  rw [openTruncate, openWrite, hx.lstat]
  cases hheld : d.held x with
  | none => exact absurd hheld htaken
  | some h =>
      cases h with
      | file i => exact absurd hheld (hother i)
      | _ => exact ⟨_, rfl⟩

theorem removeFile_leads (hx : d.Leads path x) (htaken : d.held x ≠ none) :
    ∃ d', d.removeFile path now = .ok d' ∧ d'.held x = none ∧ Around true x [] d d' ∧
      d'.inodes = d.inodes := by
  have hplace : d.place path = .ok x := by
    rw [hx.place, if_pos (Option.isSome_iff_ne_none.mpr htaken)]
  have hgone : d.removeFile path now = .ok ((d.erase fun q => q = x).touch x.dropLast now) := by
    rw [removeFile, hplace]
  refine ⟨_, hgone, ?_, ?_, rfl⟩
  · rw [held_touch_other (ne_dropLast hx.proper), held_erase, if_pos (decide_eq_true rfl)]
  · refine (around_erase (fun p hp => ?_) hx.proper rfl).touched hx.proper
    rw [of_decide_eq_true hp]

theorem removeDirAll_leads (hx : d.Leads path x) (htaken : d.held x ≠ none) :
    ∃ d', d.removeDirAll path now = .ok d' ∧ d'.held x = none ∧ Around true x [] d d' ∧
      d'.inodes = d.inodes := by
  have hplace : d.place path = .ok x := by
    rw [hx.place, if_pos (Option.isSome_iff_ne_none.mpr htaken)]
  have hgone : d.removeDirAll path now =
      .ok ((d.erase fun q => x.isPrefixOf q).touch x.dropLast now) := by
    rw [removeDirAll, hplace]
  refine ⟨_, hgone, ?_, ?_, rfl⟩
  · rw [held_touch_other (ne_dropLast hx.proper), held_erase,
      if_pos (List.isPrefixOf_iff_prefix.mpr List.prefix_rfl)]
  · exact (around_erase (fun p hp => List.isPrefixOf_iff_prefix.mp hp) hx.proper rfl).touched hx.proper

theorem removeSome_leads (hx : d.Leads path x) (removed : List (List String)) :
    Around true x [] d (d.removeSome path removed) ∧ (d.removeSome path removed).inodes = d.inodes := by
  unfold removeSome
  rw [hx.place]
  split_ifs
  · refine ⟨around_erase (fun p hp => ?_) hx.proper rfl, rfl⟩
    exact List.isPrefixOf_iff_prefix.mp (Bool.and_eq_true_iff.mp hp).1
  · exact ⟨.refl, rfl⟩

theorem hardLink_leads (hsource : d.Leads source q) (hfile : d.held q = some (.file i))
    (hx : d.Leads path x) (hfree : d.held x = none) :
    ∃ d', d.hardLink source path now = .ok d' ∧ d'.held x = some (.file i) ∧
      Around replaces x [q] d d' ∧ d'.inodes = d.inodes := by
  have hplace : d.place source = .ok q := by
    rw [hsource.place, hfile]
    rfl
  have hroom : d.room path = .ok x := by
    rw [hx.room, hfree]
    rfl
  have hlink : d.hardLink source path now = .ok ((d.put x (.file i) fun j hj =>
      d.fresh q j (hj ▸ hfile)).touch x.dropLast now) := by
    unfold hardLink
    rw [hplace]
    dsimp only
    split
    · next hnone => cases hfile.symm.trans hnone
    · next info hdir => cases hfile.symm.trans hdir
    · next h _ hheld =>
        cases hfile.symm.trans hheld
        rw [hroom]
  refine ⟨_, hlink, ?_, ?_, rfl⟩
  · rw [held_touch_other (ne_dropLast hx.proper), held_put, if_pos rfl]
  · refine (around_put hx.proper hfree ?_).touched hx.proper
    rintro j ⟨⟩
    exact ⟨q, List.mem_singleton_self q, hfile⟩

theorem openRead_leads (hx : d.Leads path x)
    (hheld : d.IsDir x ∨ ∃ i, d.held x = some (.file i)) :
    ∃ handle, d.openRead path = .ok handle ∧ d.At x handle := by
  have hplace : ∀ h, d.held x = some h → d.place path = .ok x := by
    intro h hh
    rw [hx.place, hh]
    rfl
  rcases hheld with ⟨info, hdir⟩ | ⟨i, hfile⟩
  · exact ⟨.dir x, by rw [openRead, hplace _ hdir]; dsimp only; rw [hdir], rfl, info, hdir⟩
  · exact ⟨.file i, by rw [openRead, hplace _ hfile]; dsimp only; rw [hfile], hfile⟩

end Calls

end Disk

end FileMirror
