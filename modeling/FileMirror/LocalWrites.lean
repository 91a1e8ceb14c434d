import FileMirror.PathArchive
import FileMirror.SparingPasses

set_option autoImplicit false

namespace FileMirror

def parts (rel : String) : List (List Char) := rel.toList.splitOn '/'

/-- Lexically inside the root: no absolute path and no parent component. -/
def Inside (rel : String) : Prop := rel.toList.head? ≠ some '/' ∧ ['.', '.'] ∉ parts rel

def stateDir : List Char := ".mirror".toList

def components (rel : String) : List (List Char) :=
  (parts rel).filter fun part => part ≠ [] ∧ part ≠ ['.']

def InState (rel : String) : Prop := ∃ name rest, components rel = stateDir :: name :: rest

/-- The text goes through `.mirror` first. -/
def Hidden (rel : String) : Prop := ∃ name rest, parts rel = stateDir :: name :: rest

inductive Place where
  | temp
  | named (rel : String)
  deriving DecidableEq

def Place.Inside : Place → Prop
  | .temp => True
  | .named rel => FileMirror.Inside rel

def Place.InState : Place → Prop
  | .temp => False
  | .named rel => FileMirror.InState rel

def Place.Follows (place : Place) (path : String) : Prop :=
  place.Inside ∧ (place.InState → Hidden path)

/-- `create_dir_all` of the parent -/
def ancestors (rel : String) : List Place :=
  ((parts rel).inits.dropLast.filter (· ≠ [])).map fun init => .named (String.ofList (slashed init))

def taken (rel : String) : List Place :=
  if (parts rel).getLast? = some ['.', '.'] then [] else [.named rel]

/-- `placeholder::write` -/
def placeholderWrites (path : String) : List Place :=
  if (safeJoin (stubRel path)).isSome then
    ancestors (stubRel path) ++ [.temp, .named (stubRel path)]
  else []

/-- `placeholder::remove` -/
def placeholderRemoves (path : String) : List Place :=
  if (safeJoin (stubRel path)).isSome then [.named (stubRel path)] else []

/-- What `apply` does besides its transfers; `delete_local` and `conflict` join the path of the
action as it is. -/
def Effect.places : Effect → List Place
  | .writePlaceholder stub => placeholderWrites stub.path
  | .deleteLocal path => taken path ++ placeholderRemoves path
  | .setAside path target => taken path ++ [.named target]
  | _ => []

def downloadPlaces (entry : DeltaEntry) : List Place :=
  .temp :: if (safeJoin entry.path).isSome then ancestors entry.path ++ [.named entry.path] else []

def Action.places (manifest : Manifest) (action : Action) : List Place :=
  match action.kind, manifest[action.path]? with
  | .download, some entry => downloadPlaces entry
  | .hydrate, some entry => downloadPlaces entry ++ placeholderRemoves action.path
  | .relocate, _ => [.temp]
  | _, _ => []

def loserPlaces (device : DeviceState) (conflict : RemoteConflict × String) : List Place :=
  let loser := conflict.1.loser
  let copy := copyPath conflict.2 device.deviceName loser.path
  if loser.deviceId = device.deviceId ∧ (safeJoin loser.path).isSome ∧ (safeJoin copy).isSome then
    [.named loser.path, .named copy]
  else []

/-- `evict_one` moves the file aside, and back where it has changed. -/
def evictPlaces (files : Baseline) (path : String) : List Place :=
  if (files[path]?).isSome ∧ (safeJoin path).isSome then
    placeholderWrites path ++ [.named path, .temp] ++ placeholderRemoves path
  else []

/-- The placeholders that `plan_pass` removes. -/
def stalePlaces (r : Round) (w : World) : List Place :=
  let scan := scanAllWith r.options.ignored (r.preserved w).state.files (r.preserved w).tree
  (scan.placeholders.keys.filter fun path => !(dropStale scan).contains path).flatMap
    placeholderRemoves

/-- Wherever the pass may write, up to the effect that it gets to; `evicted` are the files that
`evict_pass` picks. -/
def Round.places (r : Round) (w : World) (evicted : List String) : List Place :=
  r.conflicts.flatMap (loserPlaces w.device) ++ stalePlaces r w ++
    (r.passPlan w).plan.actions.flatMap (Action.places (r.resumedManifest w)) ++
    ((r.effects w).take r.reaches).flatMap Effect.places ++
    evicted.flatMap (evictPlaces (w.pass r).device.files)

section Parts

variable {p q : String} {l s : List Char}

theorem parts_ne_nil (p : String) : parts p ≠ [] := fun h => List.splitOn_ne_nil '/' p.toList h

theorem splitOn_append (hs : '/' ∉ s) :
    ∃ last, l.splitOn '/' = (l.splitOn '/').dropLast ++ [last] ∧
      (l ++ s).splitOn '/' = (l.splitOn '/').dropLast ++ [last ++ s] := by
  rcases cut_last l with hl | ⟨root, tail, rfl, htail⟩
  · have hls : '/' ∉ l ++ s := by
      simp only [List.mem_append, hl, hs, or_self, not_false_eq_true]
    refine ⟨l, ?_, ?_⟩
    · rw [List.splitOn_eq_singleton hl]
      rfl
    · rw [List.splitOn_eq_singleton hl, List.splitOn_eq_singleton hls]
      rfl
  · have hts : '/' ∉ tail ++ s := by
      simp only [List.mem_append, htail, hs, or_self, not_false_eq_true]
    have hroot : (root ++ '/' :: tail).splitOn '/' = root.splitOn '/' ++ [tail] := by
      rw [List.splitOn_append_cons_self, List.splitOn_eq_singleton htail]
    refine ⟨tail, ?_, ?_⟩
    · rw [hroot, List.dropLast_concat]
    · rw [hroot, List.dropLast_concat, List.append_assoc, List.cons_append,
        List.splitOn_append_cons_self, List.splitOn_eq_singleton hts]

theorem splitOn_head (l : List Char) (hs : '/' ∉ s) :
    ∃ more others, (s ++ l).splitOn '/' = (s ++ more) :: others := by
  induction s with
  | nil => exact List.exists_cons_of_ne_nil fun h => List.splitOn_ne_nil '/' l h
  | cons c s ih =>
      obtain ⟨more, others, hrest⟩ := ih fun hmem => hs (List.mem_cons_of_mem _ hmem)
      refine ⟨more, others, ?_⟩
      have hc : ¬ (c == '/') = true := by
        rw [beq_iff_eq]
        rintro rfl
        exact hs List.mem_cons_self
      rw [List.cons_append, List.splitOn_cons_eq_if_modifyHead, if_neg hc, hrest]
      rfl

theorem parts_stubRel (p : String) : ∃ last, parts p = (parts p).dropLast ++ [last] ∧
    parts (stubRel p) = (parts p).dropLast ++ [last ++ stubSuffix] := by
  unfold parts stubRel
  rw [String.toList_ofList]
  exact splitOn_append (by decide +kernel)

theorem absolute_iff : p.toList.head? = some '/' ↔ ∃ name rest, parts p = [] :: name :: rest := by
  unfold parts
  cases hp : p.toList with
  | nil => simp
  | cons c l =>
      by_cases hc : c = '/'
      · have hsplit : (c :: l).splitOn '/' = [] :: l.splitOn '/' := by
          have hslash := List.splitOn_append_cons_self (a := '/') [] l
          rw [hc]
          exact hslash
        obtain ⟨name, rest, hl⟩ := List.exists_cons_of_ne_nil (List.splitOn_ne_nil '/' l)
        rw [hsplit, hl, hc]
        exact ⟨fun _ => ⟨name, rest, rfl⟩, fun _ => rfl⟩
      · constructor
        · intro h
          exact absurd (Option.some.inj h) hc
        · rintro ⟨name, rest, h⟩
          rw [List.splitOn_cons_eq_if_modifyHead, if_neg (by simpa using hc)] at h
          obtain ⟨first, others, hl⟩ := List.exists_cons_of_ne_nil (List.splitOn_ne_nil '/' l)
          rw [hl] at h
          cases h

theorem safeJoin_isSome_iff : (safeJoin p).isSome ↔
    Inside p ∧ (parts p).head? ≠ some ['.'] := by
  unfold safeJoin normalComponents Inside parts
  rw [Option.isSome_map]
  dsimp only
  split_ifs with h
  · simp only [Option.isSome_none, Bool.false_eq_true, false_iff]
    rcases h with h | h | h
    · exact fun hin => hin.1.1 h
    · exact fun hin => hin.2 h
    · exact fun hin => hin.1.2 h
  · simp only [not_or] at h
    exact ⟨fun _ => ⟨⟨h.1, h.2.2⟩, h.2.1⟩, fun _ => rfl⟩

theorem parts_slashed {init rest : List (List Char)} (h : parts p = init ++ rest) (hinit : init ≠ []) :
    parts (String.ofList (slashed init)) = init := by
  unfold parts
  rw [String.toList_ofList]
  refine List.splitOn_intercalate _ ?_ hinit
  intro part hpart
  have hmem : part ∈ parts p := by
    rw [h]
    exact List.mem_append_left _ hpart
  exact not_mem_splitOn hmem

theorem inside_of_parts {rest : List (List Char)} (h : parts p = parts q ++ rest) (hp : Inside p) :
    Inside q := by
  constructor
  · intro habsolute
    obtain ⟨name, others, hq⟩ := absolute_iff.mp habsolute
    exact hp.1 (absolute_iff.mpr ⟨name, others ++ rest, by rw [h, hq]; rfl⟩)
  · intro hparent
    exact hp.2 (by rw [h]; exact List.mem_append_left _ hparent)

theorem mem_ancestors {place : Place} (h : place ∈ ancestors p) :
    ∃ q rest, place = .named q ∧ parts p = parts q ++ rest := by
  obtain ⟨init, hinit, rfl⟩ := List.mem_map.mp h
  obtain ⟨hmem, hne⟩ := List.mem_filter.mp hinit
  obtain ⟨rest, hrest⟩ := (List.mem_inits _ _).mp (List.mem_of_mem_dropLast hmem)
  have hslashed := parts_slashed hrest.symm (of_decide_eq_true hne)
  exact ⟨_, rest, rfl, by rw [hslashed, hrest]⟩

theorem hidden_of_inState (hjoin : (safeJoin p).isSome) (h : InState p) : Hidden p := by
  obtain ⟨hinside, hdot⟩ := safeJoin_isSome_iff.mp hjoin
  obtain ⟨name, rest, hcomponents⟩ := h
  obtain ⟨first, others, hp⟩ := List.exists_cons_of_ne_nil (parts_ne_nil p)
  unfold components at hcomponents
  rw [hp] at hcomponents
  have hothers : others ≠ [] := by
    rintro rfl
    have hlength := List.length_filter_le (fun part => decide (part ≠ [] ∧ part ≠ ['.'])) [first]
    rw [hcomponents] at hlength
    simp at hlength
  obtain ⟨second, more, rfl⟩ := List.exists_cons_of_ne_nil hothers
  have hfirst : first ≠ [] ∧ first ≠ ['.'] := by
    constructor
    · rintro rfl
      exact hinside.1 (absolute_iff.mpr ⟨second, more, hp⟩)
    · rintro rfl
      exact hdot (by rw [hp]; rfl)
  rw [List.filter_cons_of_pos (by simpa using hfirst)] at hcomponents
  have hstate := (List.cons.inj hcomponents).1
  exact ⟨second, more, by rw [hp, hstate]⟩

theorem hidden_of_sibling {more : List (List Char)} (hdir : (parts p).dropLast ≠ [])
    (hq : parts q = (parts p).dropLast ++ more) (h : Hidden q) : Hidden p := by
  obtain ⟨name, rest, hhidden⟩ := h
  obtain ⟨first, others, hfirst⟩ := List.exists_cons_of_ne_nil hdir
  have hp := (List.dropLast_concat_getLast (parts_ne_nil p)).symm
  rw [hq, hfirst] at hhidden
  have hstate := (List.cons.inj hhidden).1
  rw [hfirst, hstate] at hp
  obtain ⟨second, last, hsecond⟩ : ∃ second last, others ++ [(parts p).getLast (parts_ne_nil p)] =
      second :: last := List.exists_cons_of_ne_nil (by simp)
  exact ⟨second, last, by rw [hp, List.cons_append, hsecond]⟩

theorem hidden_of_stubRel (h : Hidden (stubRel p)) : Hidden p := by
  obtain ⟨last, -, hstub⟩ := parts_stubRel p
  apply hidden_of_sibling ?_ hstub h
  intro hdir
  obtain ⟨name, rest, hhidden⟩ := h
  rw [hstub, hdir] at hhidden
  cases (List.cons.inj hhidden).2

theorem taken_inside {more : List (List Char)} {place : Place} (hjoin : (safeJoin q).isSome)
    (hq : parts q = (parts p).dropLast ++ more) (hmore : more ≠ []) (h : place ∈ taken p) :
    place = .named p ∧ Inside p ∧ (InState p → Hidden p) := by
  obtain ⟨hinside, hdot⟩ := safeJoin_isSome_iff.mp hjoin
  unfold taken at h
  split_ifs at h with hlast
  · cases h
  obtain ⟨other, others, rfl⟩ := List.exists_cons_of_ne_nil hmore
  have hp := (List.dropLast_concat_getLast (parts_ne_nil p)).symm
  -- the first part is the same, where there is more than one
  have hshared : ∀ first second rest, parts p = first :: second :: rest →
      ∃ name tail, parts q = first :: name :: tail := by
    intro first second rest hparts
    rw [hparts, List.dropLast_cons_cons, List.cons_append] at hq
    obtain ⟨name, tail, htail⟩ : ∃ name tail,
        (second :: rest).dropLast ++ other :: others = name :: tail :=
      List.exists_cons_of_ne_nil (List.append_ne_nil_of_right_ne_nil _ (List.cons_ne_nil _ _))
    exact ⟨name, tail, by rw [hq, htail]⟩
  have hpath : Inside p := by
    constructor
    · intro habsolute
      obtain ⟨name, rest, hparts⟩ := absolute_iff.mp habsolute
      exact hinside.1 (absolute_iff.mpr (hshared _ _ _ hparts))
    · intro hparent
      rw [hp] at hparent
      cases List.mem_append.mp hparent with
      | inl hdir =>
          apply hinside.2
          rw [hq]
          exact List.mem_append_left _ hdir
      | inr hend =>
          apply hlast
          rw [List.getLast?_eq_some_getLast (parts_ne_nil p), ← List.mem_singleton.mp hend]
  refine ⟨List.mem_singleton.mp h, hpath, ?_⟩
  intro hstate
  by_cases hhead : (parts p).head? = some ['.']
  · obtain ⟨first, rest, hparts⟩ := List.exists_cons_of_ne_nil (parts_ne_nil p)
    rw [hparts] at hhead
    cases hhead
    cases rest with
    | nil =>
        obtain ⟨name, tail, hcomponents⟩ := hstate
        unfold components at hcomponents
        rw [hparts] at hcomponents
        cases hcomponents
    | cons second rest =>
        obtain ⟨name, tail, hsame⟩ := hshared _ _ _ hparts
        rw [hsame] at hdot
        exact absurd rfl hdot
  · exact hidden_of_inState (safeJoin_isSome_iff.mpr ⟨hpath, hhead⟩) hstate

end Parts

section Copies

variable {p : String} {timestamp deviceName : String}

theorem trailingCounter_mem {stem base digits : List Char}
    (h : trailingCounter stem = some (base, digits)) : base ⊆ stem := by
  unfold trailingCounter at h
  split at h
  · next rest hreverse =>
      dsimp only at h
      split at h
      · next hdigits hrest =>
          split_ifs at h
          cases h
          intro c hc
          have hdropped : c ∈ rest.dropWhile isDecimal := by
            rw [hrest]
            exact List.mem_cons_of_mem _ (List.mem_cons_of_mem _ (List.mem_reverse.mp hc))
          have hstem : c ∈ stem.reverse := by
            rw [hreverse]
            exact List.mem_cons_of_mem _ (List.dropWhile_subset _ hdropped)
          exact List.mem_reverse.mp hstem
      · cases h
  · cases h

theorem conflictStem_blank (timestamp deviceName : String) {stem : List Char} (h : '/' ∉ stem) :
    ∃ head tail, conflictStem stem timestamp deviceName = head ++ ' ' :: tail ∧ '/' ∉ head := by
  unfold conflictStem
  split_ifs
  · cases hcounter : trailingCounter stem with
    | none => exact ⟨stem, "(2)".toList, by simp, h⟩
    | some counted =>
        obtain ⟨base, digits⟩ := counted
        refine ⟨base, '(' :: (toString (((parseU32 digits).getD 1 + 1) % 2 ^ 32)).toList ++ [')'], ?_,
          fun hmem => h (trailingCounter_mem hcounter hmem)⟩
        dsimp only
        rw [List.append_assoc, List.append_assoc]
        rfl
  · refine ⟨stem, "(conflicted copy ".toList ++
      (timestamp.toList ++ (" from ".toList ++ (deviceName.toList ++ [')']))), ?_, h⟩
    rw [List.append_assoc, List.append_assoc, List.append_assoc, List.append_assoc]
    rfl

theorem conflictName_not_hidden (h : '/' ∉ p.toList) :
    ¬ Hidden (conflictName p timestamp deviceName) := by
  have hblank : ∃ head tail, (conflictName p timestamp deviceName).toList = head ++ ' ' :: tail ∧
      '/' ∉ head := by
    unfold conflictName
    rw [rsplitOnce_of_not_mem h, Option.elim_none]
    dsimp only
    cases hext : rsplitOnce '.' p.toList with
    | none =>
        rw [String.toList_ofList]
        exact conflictStem_blank timestamp deviceName h
    | some cut =>
        obtain ⟨stem, ext⟩ := cut
        have hstem : '/' ∉ stem := fun hmem => h (rsplitOnce_mem hext hmem)
        obtain ⟨head, tail, hname, hhead⟩ :=
          conflictStem_blank timestamp deviceName hstem
        refine ⟨head, tail ++ '.' :: ext, ?_, hhead⟩
        dsimp only
        rw [String.toList_ofList, hname, List.append_assoc, List.cons_append]
  rintro ⟨name, rest, hhidden⟩
  obtain ⟨head, tail, hname, hhead⟩ := hblank
  -- the first part goes on at least to the blank, which the name of the directory has not
  have hslash : '/' ∉ head ++ [' '] := by
    intro hmem
    cases List.mem_append.mp hmem with
    | inl hin => exact hhead hin
    | inr hblank => cases List.mem_singleton.mp hblank
  obtain ⟨part, others, hparts⟩ := splitOn_head tail hslash
  rw [List.append_assoc, List.singleton_append, ← hname] at hparts
  have hstate : stateDir = head ++ [' '] ++ part :=
    (List.cons.inj (hhidden.symm.trans hparts)).1
  have hmem : ' ' ∈ stateDir := by
    rw [hstate]
    exact List.mem_append_left _ (List.mem_append_right _ List.mem_cons_self)
  exact absurd hmem (by decide +kernel)

theorem parts_copyPath (timestamp deviceName p : String) : ∃ more, more ≠ [] ∧
    parts (copyPath timestamp deviceName p) = (parts p).dropLast ++ more := by
  refine ⟨parts (conflictName p timestamp deviceName), parts_ne_nil _, ?_⟩
  unfold copyPath replaceName
  rcases cut_last p.toList with hnone | ⟨root, tail, hp, htail⟩
  · rw [rsplitOnce_of_not_mem hnone]
    dsimp only
    have hsingle : parts p = [p.toList] := List.splitOn_eq_singleton hnone
    rw [hsingle]
    rfl
  · have hdir : parts p = root.splitOn '/' ++ [tail] := by
      unfold parts
      rw [hp, List.splitOn_append_cons_self, List.splitOn_eq_singleton htail]
    rw [hdir, List.dropLast_concat, hp, rsplitOnce_append htail]
    dsimp only
    unfold parts
    rw [String.toList_ofList, List.splitOn_append_cons_self]

theorem hidden_of_copyPath (h : Hidden (copyPath timestamp deviceName p)) : Hidden p := by
  obtain ⟨more, -, hcopy⟩ := parts_copyPath timestamp deviceName p
  apply hidden_of_sibling ?_ hcopy h
  intro hdir
  have hnone : '/' ∉ p.toList := by
    rcases cut_last p.toList with hnone | ⟨root, tail, hp, htail⟩
    · exact hnone
    · have hparts : parts p = root.splitOn '/' ++ [tail] := by
        unfold parts
        rw [hp, List.splitOn_append_cons_self, List.splitOn_eq_singleton htail]
      rw [hparts, List.dropLast_concat] at hdir
      exact absurd hdir fun h => List.splitOn_ne_nil '/' root h
  unfold copyPath replaceName at h
  rw [rsplitOnce_of_not_mem hnone] at h
  exact conflictName_not_hidden hnone h

end Copies

section Places

variable {p q : String} {place : Place}

theorem temp_follows : Place.temp.Follows p := ⟨trivial, False.elim⟩

theorem joined_follows (h : (safeJoin p).isSome) : (Place.named p).Follows p :=
  ⟨(safeJoin_isSome_iff.mp h).1, hidden_of_inState h⟩

theorem ancestors_follow (h : (safeJoin p).isSome) (hplace : place ∈ ancestors p) :
    place.Follows p := by
  obtain ⟨q, rest, rfl, hleads⟩ := mem_ancestors hplace
  refine ⟨inside_of_parts hleads (safeJoin_isSome_iff.mp h).1, ?_⟩
  rintro ⟨name, others, hcomponents⟩
  apply hidden_of_inState h
  refine ⟨name, others ++ rest.filter fun part => part ≠ [] ∧ part ≠ ['.'], ?_⟩
  unfold components at hcomponents ⊢
  rw [hleads, List.filter_append, hcomponents]
  rfl

theorem safeJoin_parts (h : safeJoin p = some q) :
    parts q = components p ∨ components p = [] ∧ parts q = [[]] := by
  obtain ⟨kept, hkept, rfl⟩ := Option.map_eq_some_iff.mp h
  have hcomponents : kept = components p := by
    unfold normalComponents at hkept
    dsimp only at hkept
    split_ifs at hkept
    exact (Option.some.inj hkept).symm
  by_cases hnone : kept = []
  · exact .inr ⟨hcomponents.symm.trans hnone, by rw [hnone]; rfl⟩
  · left
    rw [← hcomponents]
    unfold parts
    rw [String.toList_ofList]
    refine List.splitOn_intercalate _ ?_ hnone
    intro part hpart
    rw [hcomponents] at hpart
    exact not_mem_splitOn (List.mem_filter.mp hpart).1

theorem safeJoin_joined (h : safeJoin p = some q) : (safeJoin q).isSome := by
  have hsome : (safeJoin p).isSome := by rw [h]; rfl
  have hinside := (safeJoin_isSome_iff.mp hsome).1
  have hproper : ∀ part ∈ parts q, part ≠ ['.'] ∧ part ≠ ['.', '.'] ∧
      (part = [] → parts q = [[]]) := by
    intro part hpart
    rcases safeJoin_parts h with hparts | ⟨-, hparts⟩
    · rw [hparts] at hpart
      obtain ⟨hmem, hkept⟩ := List.mem_filter.mp hpart
      obtain ⟨hempty, hdot⟩ := of_decide_eq_true hkept
      refine ⟨hdot, ?_, fun hnil => absurd hnil hempty⟩
      rintro rfl
      exact hinside.2 hmem
    · rw [hparts] at hpart ⊢
      rw [List.mem_singleton.mp hpart]
      exact ⟨by decide, by decide, fun _ => rfl⟩
  rw [safeJoin_isSome_iff]
  refine ⟨⟨?_, ?_⟩, ?_⟩
  · intro habsolute
    obtain ⟨name, rest, hparts⟩ := absolute_iff.mp habsolute
    have hsingle := (hproper [] (by rw [hparts]; exact List.mem_cons_self)).2.2 rfl
    rw [hsingle] at hparts
    cases hparts
  · exact fun hparent => (hproper _ hparent).2.1 rfl
  · intro hdot
    exact (hproper _ (List.mem_of_mem_head? hdot)).1 rfl

theorem safeJoin_follows (h : safeJoin p = some q) : (Place.named q).Follows p := by
  have hsome : (safeJoin p).isSome := by rw [h]; rfl
  refine ⟨(safeJoin_isSome_iff.mp (safeJoin_joined h)).1, ?_⟩
  rintro ⟨name, rest, hstate⟩
  apply hidden_of_inState hsome
  refine ⟨name, rest, ?_⟩
  unfold components at hstate
  rcases safeJoin_parts h with hparts | ⟨-, hparts⟩
  · rw [hparts] at hstate
    unfold components at hstate ⊢
    rw [List.filter_filter] at hstate
    simpa only [Bool.and_self] using hstate
  · rw [hparts] at hstate
    cases hstate

theorem Place.Follows.stub (h : place.Follows (stubRel p)) : place.Follows p :=
  ⟨h.1, fun hstate => hidden_of_stubRel (h.2 hstate)⟩

theorem placeholderWrites_follow (h : place ∈ placeholderWrites p) : place.Follows p := by
  unfold placeholderWrites at h
  split_ifs at h with hjoin
  · apply Place.Follows.stub
    cases List.mem_append.mp h with
    | inl hancestor => exact ancestors_follow hjoin hancestor
    | inr hfile =>
        rcases List.mem_cons.mp hfile with rfl | hstub
        · exact temp_follows
        · rw [List.mem_singleton.mp hstub]
          exact joined_follows hjoin
  · cases h

theorem placeholderRemoves_follow (h : place ∈ placeholderRemoves p) : place.Follows p := by
  unfold placeholderRemoves at h
  split_ifs at h with hjoin
  · rw [List.mem_singleton.mp h]
    exact (joined_follows hjoin).stub
  · cases h

theorem downloadPlaces_follow {entry : DeltaEntry} (h : place ∈ downloadPlaces entry) :
    place.Follows entry.path := by
  unfold downloadPlaces at h
  rcases List.mem_cons.mp h with rfl | h
  · exact temp_follows
  split_ifs at h with hjoin
  · cases List.mem_append.mp h with
    | inl hancestor => exact ancestors_follow hjoin hancestor
    | inr hfile =>
        rw [List.mem_singleton.mp hfile]
        exact joined_follows hjoin
  · cases h

theorem loserPlaces_follow {device : DeviceState} {conflict : RemoteConflict × String}
    (h : place ∈ loserPlaces device conflict) :
    conflict.1.loser.deviceId = device.deviceId ∧ place.Follows conflict.1.loser.path := by
  unfold loserPlaces at h
  dsimp only at h
  split_ifs at h with hown
  · refine ⟨hown.1, ?_⟩
    rcases List.mem_cons.mp h with rfl | hcopy
    · exact joined_follows hown.2.1
    · rw [List.mem_singleton.mp hcopy]
      have hfollows := joined_follows hown.2.2
      exact ⟨hfollows.1, fun hstate => hidden_of_copyPath (hfollows.2 hstate)⟩
  · cases h

theorem evictPlaces_follow {files : Baseline} (h : place ∈ evictPlaces files p) :
    (files[p]?).isSome ∧ place.Follows p := by
  unfold evictPlaces at h
  split_ifs at h with hjoin
  · refine ⟨hjoin.1, ?_⟩
    rcases List.mem_append.mp h with h | hremoved
    · rcases List.mem_append.mp h with hstub | hfile
      · exact placeholderWrites_follow hstub
      · rcases List.mem_cons.mp hfile with rfl | haside
        · exact joined_follows hjoin.2
        · rw [List.mem_singleton.mp haside]
          exact temp_follows
    · exact placeholderRemoves_follow hremoved
  · cases h

theorem taken_follows (hjoin : (safeJoin (stubRel p)).isSome) (h : place ∈ taken p) :
    place.Follows p := by
  obtain ⟨last, -, hstub⟩ := parts_stubRel p
  obtain ⟨rfl, hinside, hhidden⟩ := taken_inside hjoin hstub (List.cons_ne_nil _ _) h
  exact ⟨hinside, hhidden⟩

theorem setAside_follows {timestamp deviceName : String}
    (hjoin : safeJoin (copyPath timestamp deviceName p) = some q)
    (h : place ∈ (Effect.setAside p q).places) : place.Follows p := by
  obtain ⟨more, hmore, hcopy⟩ := parts_copyPath timestamp deviceName p
  rcases List.mem_append.mp h with hfile | htarget
  · have hsome : (safeJoin (copyPath timestamp deviceName p)).isSome := by rw [hjoin]; rfl
    obtain ⟨rfl, hinside, hhidden⟩ := taken_inside hsome hcopy hmore hfile
    exact ⟨hinside, hhidden⟩
  · rw [List.mem_singleton.mp htarget]
    have hfollows := safeJoin_follows hjoin
    exact ⟨hfollows.1, fun hstate => hidden_of_copyPath (hfollows.2 hstate)⟩

end Places

end FileMirror
