import Mathlib.Data.String.Basic
import Mathlib.Data.List.Infix

set_option autoImplicit false

namespace FileMirror

instance chars_lawfulBEq : LawfulBEq (List Char) := inferInstance

/-- `text.rsplit_once(mark)` on characters. -/
def rsplitOnce (mark : Char) (text : List Char) : Option (List Char × List Char) :=
  if mark ∈ text then
    let after := (text.reverse.takeWhile (· ≠ mark)).reverse
    some (text.take (text.length - after.length - 1), after)
  else none

def slashed (parts : List (List Char)) : List Char := ['/'].intercalate parts

/-- What `Path::components` makes of a relative text: empty parts and inner dots vanish, so that
`none` stands for a root, a parent or a leading dot component. -/
def normalComponents (rel : String) : Option (List (List Char)) :=
  let parts := rel.toList.splitOn '/'
  let leadingDot := parts.head? = some ['.']
  if rel.toList.head? = some '/' ∨ leadingDot ∨ ['.', '.'] ∈ parts then none
  else some (parts.filter fun part => part ≠ [] ∧ part ≠ ['.'])

/-- `safe_join` below the root: the file that `rel` names, or `none` where the source refuses. -/
def safeJoin (rel : String) : Option String :=
  (normalComponents rel).map fun parts => String.ofList (slashed parts)

def replaceName (path name : String) : String :=
  match rsplitOnce '/' path.toList with
  | some (root, _) => String.ofList (root ++ '/' :: name.toList)
  | none => name

def conflictedMark : List Char := " (conflicted copy ".toList

/-- The zeros of Unicode 16; each begins ten decimal numbers. -/
def decimalZeros : List ℕ :=
  [0x0030, 0x0660, 0x06f0, 0x07c0, 0x0966, 0x09e6, 0x0a66, 0x0ae6, 0x0b66, 0x0be6, 0x0c66, 0x0ce6,
    0x0d66, 0x0de6, 0x0e50, 0x0ed0, 0x0f20, 0x1040, 0x1090, 0x17e0, 0x1810, 0x1946, 0x19d0, 0x1a80,
    0x1a90, 0x1b50, 0x1bb0, 0x1c40, 0x1c50, 0xa620, 0xa8d0, 0xa900, 0xa9d0, 0xa9f0, 0xaa50, 0xabf0,
    0xff10, 0x104a0, 0x10d30, 0x10d40, 0x11066, 0x110f0, 0x11136, 0x111d0, 0x112f0, 0x11450,
    0x114d0, 0x11650, 0x116c0, 0x116d0, 0x116da, 0x11730, 0x118e0, 0x11950, 0x11bf0, 0x11c50,
    0x11d50, 0x11da0, 0x11f50, 0x16130, 0x16a60, 0x16ac0, 0x16b50, 0x16d70, 0x1ccf0, 0x1d7ce,
    0x1d7d8, 0x1d7e2, 0x1d7ec, 0x1d7f6, 0x1e140, 0x1e2f0, 0x1e4f0, 0x1e5f1, 0x1e950, 0x1fbf0]

/-- `\d` -/
def isDecimal (c : Char) : Bool :=
  decimalZeros.any fun first => decide (first ≤ c.toNat ∧ c.toNat < first + 10)

/-- The captures of `^(.*) \((\d+)\)$`. -/
def trailingCounter (stem : List Char) : Option (List Char × List Char) :=
  match stem.reverse with
  | ')' :: rest =>
      let digits := rest.takeWhile isDecimal
      match digits, rest.dropWhile isDecimal with
      | _ :: _, '(' :: ' ' :: base =>
          if '\n' ∈ base then none else some (base.reverse, digits.reverse)
      | _, _ => none
  | _ => none

/-- `parse::<u32>`, which reads ASCII digits only. -/
def parseU32 (digits : List Char) : Option ℕ :=
  let n := digits.foldl (fun n c => 10 * n + (c.toNat - 48)) 0
  if digits.all Char.isDigit ∧ n < 2 ^ 32 then some n else none

def conflictStem (stem : List Char) (timestamp deviceName : String) : List Char :=
  if conflictedMark <:+: stem then
    match trailingCounter stem with
    | some (base, digits) =>
        let n := (parseU32 digits).getD 1
        -- the addition of a release build wraps
        base ++ " (".toList ++ (toString ((n + 1) % 2 ^ 32)).toList ++ [')']
    | none => stem ++ " (2)".toList
  else
    stem ++ conflictedMark ++ timestamp.toList ++ " from ".toList ++ deviceName.toList ++ [')']

def conflictName (path timestamp deviceName : String) : String :=
  let name := (rsplitOnce '/' path.toList).elim path.toList Prod.snd
  match rsplitOnce '.' name with
  | some (stem, ext) => String.ofList (conflictStem stem timestamp deviceName ++ '.' :: ext)
  | none => String.ofList (conflictStem name timestamp deviceName)

example : replaceName "docs/a.txt" (conflictName "docs/a.txt" "now" "pc") =
    "docs/a (conflicted copy now from pc).txt" := by decide +kernel

theorem cut_last (l : List Char) :
    '/' ∉ l ∨ ∃ root tail, l = root ++ '/' :: tail ∧ '/' ∉ tail := by
  induction l with
  | nil => exact .inl List.not_mem_nil
  | cons c l ih =>
      rcases ih with hnone | ⟨root, tail, rfl, htail⟩
      · by_cases hc : c = '/'
        · exact .inr ⟨[], l, by rw [hc]; rfl, hnone⟩
        · left
          intro hmem
          cases List.mem_cons.mp hmem with
          | inl heq => exact hc heq.symm
          | inr hl => exact hnone hl
      · exact .inr ⟨c :: root, tail, rfl, htail⟩

theorem rsplitOnce_of_not_mem {mark : Char} {text : List Char} (h : mark ∉ text) :
    rsplitOnce mark text = none := by
  unfold rsplitOnce
  rw [if_neg h]

theorem rsplitOnce_append {mark : Char} {root tail : List Char} (h : mark ∉ tail) :
    rsplitOnce mark (root ++ mark :: tail) = some (root, tail) := by
  have hmem : mark ∈ root ++ mark :: tail := List.mem_append_right _ List.mem_cons_self
  have hafter : ((root ++ mark :: tail).reverse.takeWhile (· ≠ mark)).reverse = tail := by
    rw [List.reverse_append, List.reverse_cons, List.append_assoc, List.takeWhile_append_of_pos]
    · simp
    · intro c hc
      rw [decide_eq_true_eq]
      rintro rfl
      exact h (List.mem_reverse.mp hc)
  unfold rsplitOnce
  have hlength : (root ++ mark :: tail).length - tail.length - 1 = root.length := by
    rw [List.length_append, List.length_cons]
    omega
  rw [if_pos hmem]
  dsimp only
  rw [hafter, hlength, List.take_left]

theorem rsplitOnce_eq_some {mark : Char} {text root tail : List Char} :
    rsplitOnce mark text = some (root, tail) ↔ text = root ++ mark :: tail ∧ mark ∉ tail := by
  constructor
  · intro h
    have hmem : mark ∈ text := by
      by_contra hnot
      rw [rsplitOnce_of_not_mem hnot] at h
      cases h
    obtain ⟨after, before, htext, hafter⟩ :=
      List.eq_append_cons_of_mem (List.mem_reverse.mpr hmem)
    have hcut : text = before.reverse ++ mark :: after.reverse := by
      rw [← List.reverse_reverse text, htext, List.reverse_append, List.reverse_cons,
        List.append_assoc]
      rfl
    have hnot : mark ∉ after.reverse := mt List.mem_reverse.mp hafter
    rw [hcut, rsplitOnce_append hnot] at h
    cases h
    exact ⟨hcut, hnot⟩
  · rintro ⟨rfl, hnot⟩
    exact rsplitOnce_append hnot

theorem rsplitOnce_mem {mark : Char} {text stem ext : List Char}
    (h : rsplitOnce mark text = some (stem, ext)) : stem ⊆ text := by
  rw [(rsplitOnce_eq_some.mp h).1]
  exact List.subset_append_left _ _

end FileMirror
