import FileMirror.IndexListings
import FileMirror.PathArchive
import FileMirror.Outermost

set_option autoImplicit false

namespace FileMirror

namespace Outermost

variable {α : Type*} [LinearOrder α] {l m : List (List α)} {p : List α}

theorem mem_outermost : p ∈ outermost l ↔ p ∈ l ∧ ∀ q ∈ l, q <+: p → q = p := by
  constructor
  · intro hp
    refine ⟨outermost_subset hp, fun q hq hqp => ?_⟩
    obtain ⟨k, hk, hkq⟩ := outermost_covers hq
    have hkp := outermost_apart hk hp (hkq.trans hqp)
    exact (hqp.eq_of_length_le (hkp ▸ hkq.length_le))
  · rintro ⟨hp, hmin⟩
    obtain ⟨k, hk, hkp⟩ := outermost_covers hp
    exact hmin k (outermost_subset hk) hkp ▸ hk

theorem outermost_strict (l : List (List α)) : (outermost l).Pairwise (· < ·) := by
  refine (outermost_sorted l).imp ?_
  rintro x y ⟨hle, hapart⟩
  refine lt_of_le_of_ne hle ?_
  rintro rfl
  exact hapart (List.prefix_refl x)

theorem outermost_congr (h : ∀ p, p ∈ l ↔ p ∈ m) : outermost l = outermost m := by
  refine (outermost_strict l).eq_of_mem_iff (outermost_strict m) fun p => ?_
  rw [mem_outermost, mem_outermost, h]
  simp only [h]

theorem outermost_outermost (l : List (List α)) : outermost (outermost l) = outermost l := by
  refine (outermost_strict _).eq_of_mem_iff (outermost_strict l) fun p => ?_
  rw [mem_outermost]
  constructor
  · exact And.left
  · exact fun hp => ⟨hp, fun q hq hqp => outermost_apart hq hp hqp⟩

theorem outermost_unique (h : p ∈ l) : ∃! k, k ∈ outermost l ∧ k <+: p := by
  obtain ⟨k, hk, hkp⟩ := outermost_covers h
  refine ⟨k, ⟨hk, hkp⟩, ?_⟩
  rintro x ⟨hx, hxp⟩
  obtain hxk | hkx := List.prefix_or_prefix_of_prefix hxp hkp
  · exact outermost_apart hx hk hxk
  · exact (outermost_apart hk hx hkx).symm

end Outermost

abbrev Octet := Fin 256

def slash : Octet := 47

def period : Octet := 46

/-- The names between the slashes; names of bytes compare as `Path` has it. -/
abbrev OsPath := List (List Octet)

def osComponents (path : List Octet) : OsPath := (path.splitOn slash).filter fun part => part ≠ []

/-- `display` shows a path in an error, and `cwd` is the working directory, if it can be had. -/
structure PathEnv where
  display : List Octet → String
  cwd : Except String (List Octet)

/-- The components of `std::path::absolute` of a path. -/
def PathEnv.absolute (env : PathEnv) (path : List Octet) : Except String OsPath :=
  if path = [] then .error "cannot make an empty path absolute"
  else if path.head? = some slash then .ok (osComponents path)
  else env.cwd.map fun dir => osComponents dir ++ osComponents path

def cleanParts (parts : OsPath) : OsPath :=
  parts.foldl
    (fun out part =>
      if part = [period] then out
      else if part = [period, period] then out.dropLast
      else out ++ [part]) []

namespace PathEnv

/-- `clean_path` -/
def clean (env : PathEnv) (path : List Octet) : Except BackupError OsPath :=
  match env.absolute path with
  | .error e => .error (.invalid s!"{env.display path}: {e}")
  | .ok parts => .ok (cleanParts parts)

/-- `normalize_paths` -/
def normalize (env : PathEnv) (paths : List (List Octet)) : Except BackupError (List OsPath) :=
  (paths.mapM env.clean).map Outermost.outermost

end PathEnv

def spelled (path : OsPath) : List Octet :=
  if path = [] then [slash] else path.flatMap fun name => slash :: name

def PlainName (name : List Octet) : Prop :=
  name ≠ [] ∧ slash ∉ name ∧ name ≠ [period] ∧ name ≠ [period, period]

def Clean (path : OsPath) : Prop := ∀ name ∈ path, PlainName name

section Clean

variable {env : PathEnv} {path : List Octet} {parts p : OsPath} {paths more : List (List Octet)}
  {out : List OsPath}

theorem mem_osComponents {name : List Octet} (h : name ∈ osComponents path) :
    name ≠ [] ∧ slash ∉ name := by
  obtain ⟨hname, hne⟩ := List.mem_filter.mp h
  exact ⟨of_decide_eq_true hne, not_mem_splitOn hname⟩

theorem clean_cleanParts (h : ∀ name ∈ parts, name ≠ [] ∧ slash ∉ name) : Clean (cleanParts parts) := by
  have hfold : ∀ (parts out : OsPath), (∀ name ∈ parts, name ≠ [] ∧ slash ∉ name) → Clean out →
      Clean (parts.foldl (fun out part =>
        if part = [period] then out
        else if part = [period, period] then out.dropLast
        else out ++ [part]) out) := by
    intro parts
    induction parts with
    | nil => exact fun out _ hout => hout
    | cons part parts ih =>
        intro out hparts hout
        obtain ⟨⟨hne, hslash⟩, hrest⟩ := List.forall_mem_cons.mp hparts
        refine ih _ hrest ?_
        dsimp only
        split_ifs with hdot hdots
        · exact hout
        · exact fun name hname => hout name (List.dropLast_subset _ hname)
        · intro name hname
          obtain hname | hname := List.mem_append.mp hname
          · exact hout name hname
          · rw [List.mem_singleton.mp hname]
            exact ⟨hne, hslash, hdot, hdots⟩
  exact hfold parts [] h fun name hname => absurd hname List.not_mem_nil

theorem cleanParts_of_clean (h : Clean p) : cleanParts p = p := by
  have hfold : ∀ (parts out : OsPath), Clean parts →
      parts.foldl (fun out part =>
        if part = [period] then out
        else if part = [period, period] then out.dropLast
        else out ++ [part]) out = out ++ parts := by
    intro parts
    induction parts with
    | nil => exact fun out _ => (List.append_nil out).symm
    | cons part parts ih =>
        intro out hparts
        obtain ⟨⟨_, _, hdot, hdots⟩, hrest⟩ := List.forall_mem_cons.mp hparts
        rw [List.foldl_cons, if_neg hdot, if_neg hdots, ih _ hrest, List.append_assoc]
        rfl
  exact hfold p [] h

theorem absolute_parts (h : env.absolute path = .ok parts) :
    ∀ name ∈ parts, name ≠ [] ∧ slash ∉ name := by
  unfold PathEnv.absolute at h
  split_ifs at h
  · cases h
    exact fun name hname => mem_osComponents hname
  · cases hcwd : env.cwd with
    | error e =>
        rw [hcwd] at h
        cases h
    | ok dir =>
        rw [hcwd] at h
        cases h
        intro name hname
        obtain hname | hname := List.mem_append.mp hname
        · exact mem_osComponents hname
        · exact mem_osComponents hname

theorem clean_ok (h : env.clean path = .ok p) : ∃ parts, env.absolute path = .ok parts ∧
    cleanParts parts = p := by
  unfold PathEnv.clean at h
  split at h
  · cases h
  · rename_i parts hparts
    cases h
    exact ⟨parts, hparts, rfl⟩

theorem clean_of_clean (h : env.clean path = .ok p) : Clean p := by
  obtain ⟨parts, hparts, rfl⟩ := clean_ok h
  exact clean_cleanParts (absolute_parts hparts)

theorem osComponents_names (h : Clean p) (name : List Octet) (hname : slash ∉ name) :
    (name ++ p.flatMap fun name => slash :: name).splitOn slash = name :: p := by
  induction p generalizing name with
  | nil => simp [List.splitOn_eq_singleton hname]
  | cons other p ih =>
      obtain ⟨hother, hrest⟩ := List.forall_mem_cons.mp h
      rw [List.flatMap_cons, List.cons_append, List.splitOn_append_cons_self,
        List.splitOn_eq_singleton hname, ih hrest other hother.2.1]
      rfl

theorem clean_spelled (h : Clean p) : env.clean (spelled p) = .ok p := by
  have hparts : osComponents (spelled p) = p := by
    unfold spelled
    split_ifs with hp
    · rw [hp]
      decide
    · have hsplit := osComponents_names h [] List.not_mem_nil
      rw [List.nil_append] at hsplit
      unfold osComponents
      rw [hsplit, List.filter_cons_of_neg (by simp), List.filter_eq_self]
      exact fun name hname => decide_eq_true (h name hname).1
  have hhead : (spelled p).head? = some slash := by
    unfold spelled
    split_ifs with hp
    · rfl
    · obtain ⟨name, rest, rfl⟩ := List.exists_cons_of_ne_nil hp
      rfl
  have hne : spelled p ≠ [] := by
    intro hnil
    rw [hnil] at hhead
    cases hhead
  unfold PathEnv.clean PathEnv.absolute
  rw [if_neg hne, if_pos hhead]
  dsimp only
  rw [hparts, cleanParts_of_clean h]

end Clean

/-- What `normalize_paths` is for. -/
structure Normalized (env : PathEnv) (paths : List (List Octet)) (out : List OsPath) : Prop where
  clean : ∀ k ∈ out, Clean k
  increasing : out.Pairwise (· < ·)
  apart : ∀ x ∈ out, ∀ y ∈ out, x <+: y → x = y
  covers : ∀ p ∈ paths, ∃ c, env.clean p = .ok c ∧ ∃! k, k ∈ out ∧ k <+: c
  given : ∀ k ∈ out, ∃ p ∈ paths, env.clean p = .ok k
  unordered : ∀ more, (∀ p, p ∈ more ↔ p ∈ paths) → env.normalize more = .ok out
  idempotent : env.normalize (out.map spelled) = .ok out

section Normalize

variable {env : PathEnv} {paths more : List (List Octet)} {cleaned out : List OsPath}

theorem clean_isOk (path : List Octet) : (∃ p, env.clean path = .ok p) ↔
    path ≠ [] ∧ (path.head? = some slash ∨ ∃ dir, env.cwd = .ok dir) := by
  unfold PathEnv.clean PathEnv.absolute
  by_cases hpath : path = []
  · simp [hpath]
  · rw [if_neg hpath]
    by_cases hhead : path.head? = some slash
    · simp [hpath, hhead]
    · rw [if_neg hhead]
      cases env.cwd with
      | error e => simp [hhead, Except.map]
      | ok dir => simp [hpath, Except.map]

theorem normalize_eq_ok : env.normalize paths = .ok out ↔
    ∃ cleaned, List.Forall₂ (fun path p => env.clean path = .ok p) paths cleaned ∧
      Outermost.outermost cleaned = out := by
  unfold PathEnv.normalize
  cases hcleaned : paths.mapM env.clean with
  | error e =>
      constructor
      · nofun
      · rintro ⟨cleaned, hall, _⟩
        rw [mapM_eq_ok.mpr hall] at hcleaned
        cases hcleaned
  | ok cleaned =>
      have hall := mapM_eq_ok.mp hcleaned
      constructor
      · intro h
        cases h
        exact ⟨cleaned, hall, rfl⟩
      · rintro ⟨other, hother, rfl⟩
        rw [mapM_eq_ok.mpr hother] at hcleaned
        cases hcleaned
        rfl

theorem mem_cleaned (h : List.Forall₂ (fun path p => env.clean path = .ok p) paths cleaned)
    (p : OsPath) : p ∈ cleaned ↔ ∃ path ∈ paths, env.clean path = .ok p := by
  induction h with
  | nil => simp
  | @cons path first paths cleaned hfirst _ ih =>
      rw [List.mem_cons, ih, List.exists_mem_cons_iff, hfirst, Except.ok.injEq, eq_comm]

theorem cleaned_all (h : List.Forall₂ (fun path p => env.clean path = .ok p) paths cleaned) :
    ∀ path ∈ paths, ∃ p, env.clean path = .ok p := by
  induction h with
  | nil => exact fun path hpath => absurd hpath List.not_mem_nil
  | cons hfirst _ ih => exact List.forall_mem_cons.mpr ⟨⟨_, hfirst⟩, ih⟩

theorem cleaned_exists (h : ∀ path ∈ paths, ∃ p, env.clean path = .ok p) :
    ∃ cleaned, List.Forall₂ (fun path p => env.clean path = .ok p) paths cleaned := by
  induction paths with
  | nil => exact ⟨[], .nil⟩
  | cons path paths ih =>
      obtain ⟨⟨p, hp⟩, hrest⟩ := List.forall_mem_cons.mp h
      obtain ⟨cleaned, hcleaned⟩ := ih hrest
      exact ⟨p :: cleaned, .cons hp hcleaned⟩

theorem normalize_spelled (h : ∀ k ∈ out, Clean k) :
    env.normalize (out.map spelled) = .ok (Outermost.outermost out) := by
  refine normalize_eq_ok.mpr ⟨out, ?_, rfl⟩
  rw [List.forall₂_map_left_iff, List.forall₂_same]
  exact fun k hk => clean_spelled (h k hk)

theorem normalized_outermost
    (h : List.Forall₂ (fun path p => env.clean path = .ok p) paths cleaned) :
    Normalized env paths (Outermost.outermost cleaned) := by
  have hclean : ∀ k ∈ Outermost.outermost cleaned, Clean k := by
    intro k hk
    obtain ⟨path, _, hpath⟩ := (mem_cleaned h k).mp (Outermost.outermost_subset hk)
    exact clean_of_clean hpath
  refine ⟨hclean, Outermost.outermost_strict cleaned, ?_, ?_, ?_, ?_, ?_⟩
  · exact fun x hx y hy hxy => Outermost.outermost_apart hx hy hxy
  · intro path hpath
    obtain ⟨p, hp⟩ := cleaned_all h path hpath
    exact ⟨p, hp, Outermost.outermost_unique ((mem_cleaned h p).mpr ⟨path, hpath, hp⟩)⟩
  · intro k hk
    exact (mem_cleaned h k).mp (Outermost.outermost_subset hk)
  · intro more hmore
    obtain ⟨others, hothers⟩ : ∃ others,
        List.Forall₂ (fun path p => env.clean path = .ok p) more others :=
      cleaned_exists fun path hpath => cleaned_all h path ((hmore path).mp hpath)
    refine normalize_eq_ok.mpr ⟨others, hothers, Outermost.outermost_congr fun p => ?_⟩
    rw [mem_cleaned hothers, mem_cleaned h]
    simp only [hmore]
  · rw [normalize_spelled hclean, Outermost.outermost_outermost]

/-- Every list of paths that can be made absolute is normalized; an empty path cannot be, nor can a
relative one where the working directory is not to be had. -/
theorem normalize_paths (env : PathEnv) (paths : List (List Octet)) :
    (∃ out, env.normalize paths = .ok out ∧ Normalized env paths out) ↔
      ∀ p ∈ paths, p ≠ [] ∧ (p.head? = some slash ∨ ∃ dir, env.cwd = .ok dir) := by
  constructor
  · rintro ⟨out, hout, _⟩ path hpath
    obtain ⟨cleaned, hcleaned, _⟩ := normalize_eq_ok.mp hout
    exact (clean_isOk path).mp (cleaned_all hcleaned path hpath)
  · intro h
    obtain ⟨cleaned, hcleaned⟩ := cleaned_exists fun path hpath => (clean_isOk path).mpr (h path hpath)
    exact ⟨_, normalize_eq_ok.mpr ⟨cleaned, hcleaned, rfl⟩, normalized_outermost hcleaned⟩

theorem empty_path_not_normalized :
    (PathEnv.mk (fun _ => "") (.ok [slash])).normalize [[]] =
      .error (.invalid ": cannot make an empty path absolute") := by
  decide +kernel

example : (PathEnv.mk (fun _ => "") (.ok [slash, 99])).normalize
    [[slash, 97, 98], [slash, 97], [97], [slash, 97, slash, 98], [slash, 99, slash]] =
      .ok [[[97]], [[97, 98]], [[99]]] := by
  decide +kernel

end Normalize

end FileMirror
