import Mathlib.Data.List.Basic
import Mathlib.Data.String.Basic

set_option autoImplicit false

namespace Utf8Lines

def utf8 (s : String) : List UInt8 := s.toByteArray.data.toList

def fromUtf8 (bytes : List UInt8) : Option String := String.fromUTF8? ⟨bytes.toArray⟩

def rawLines : List UInt8 → List (List UInt8)
  | [] => []
  | byte :: rest =>
      if byte = 10 then [10] :: rawLines rest
      else
        match rawLines rest with
        | [] => [[byte]]
        | line :: more => (byte :: line) :: more

def chomp (line : List UInt8) : List UInt8 :=
  match line.reverse with
  | 10 :: 13 :: rest => rest.reverse
  | 10 :: rest => rest.reverse
  | _ => line

def lines (bytes : List UInt8) : List (Option String) :=
  (rawLines bytes).map fun line => fromUtf8 (chomp line)

def mapWhile {α β : Type} (f : α → Option β) : List α → List β
  | [] => []
  | a :: rest =>
      match f a with
      | some b => b :: mapWhile f rest
      | none => []

variable {s t : String} {bytes line rest : List UInt8} {c : Char} {byte : UInt8}

theorem utf8_append : utf8 (s ++ t) = utf8 s ++ utf8 t := by
  rw [utf8, String.toByteArray_append, ByteArray.data_append, Array.toList_append]
  rfl

theorem utf8_injective : Function.Injective utf8 := by
  intro s t h
  exact String.toByteArray_inj.mp (ByteArray.ext (Array.toList_inj.mp h))

theorem fromUtf8_eq_some : fromUtf8 bytes = some s ↔ utf8 s = bytes := by
  unfold fromUtf8 String.fromUTF8?
  split_ifs with hvalid
  · rw [Option.some_inj]
    constructor
    · intro h
      rw [← h]
      rfl
    · intro h
      refine utf8_injective ?_
      rw [h]
      rfl
  · constructor
    · intro h
      cases h
    · intro h
      refine absurd ?_ hvalid
      rw [← h]
      exact s.isValidUTF8

theorem fromUtf8_utf8 : fromUtf8 (utf8 s) = some s := fromUtf8_eq_some.mpr rfl

theorem utf8_eq_flatMap : utf8 s = s.toList.flatMap String.utf8EncodeChar := by
  rw [utf8, ← String.utf8Encode_toList, List.utf8Encode, List.data_toByteArray]

theorem mem_utf8EncodeChar (hbyte : byte.toNat < 128) :
    byte ∈ String.utf8EncodeChar c ↔ c.toNat = byte.toNat := by
  have hpart (n k : ℕ) (hk : 128 ≤ k) (hn : n + k < 256) : byte ≠ UInt8.ofNat (n + k) := by
    intro h
    rw [h, UInt8.toNat_ofNat', Nat.mod_eq_of_lt hn] at hbyte
    omega
  have hchar : c.toNat = c.val.toNat := rfl
  unfold String.utf8EncodeChar
  dsimp only
  split_ifs with hone htwo hthree
  · rw [List.mem_singleton, ← UInt8.toNat_inj, UInt8.toNat_ofNat', Nat.mod_eq_of_lt (by omega),
      eq_comm, hchar]
  all_goals
    refine iff_of_false ?_ (by omega)
    simp only [List.mem_cons, List.not_mem_nil, or_false, not_or]
  · exact ⟨hpart _ _ (by omega) (by omega), hpart _ _ (by omega) (by omega)⟩
  · exact ⟨hpart _ _ (by omega) (by omega), hpart _ _ (by omega) (by omega),
      hpart _ _ (by omega) (by omega)⟩
  · exact ⟨hpart _ _ (by omega) (by omega), hpart _ _ (by omega) (by omega),
      hpart _ _ (by omega) (by omega), hpart _ _ (by omega) (by omega)⟩

theorem mem_utf8 (hbyte : byte.toNat < 128) :
    byte ∈ utf8 s ↔ ∃ c ∈ s.toList, c.toNat = byte.toNat := by
  rw [utf8_eq_flatMap, List.mem_flatMap]
  simp only [mem_utf8EncodeChar hbyte]

theorem length_utf8 (hascii : ∀ c ∈ s.toList, c.toNat < 128) : (utf8 s).length = s.length := by
  have hone : ∀ c ∈ s.toList, (String.utf8EncodeChar c).length = 1 := by
    intro c hc
    have hsmall : c.val.toNat ≤ 127 := Nat.le_of_lt_succ (hascii c hc)
    unfold String.utf8EncodeChar
    dsimp only
    rw [if_pos hsmall]
    rfl
  rw [utf8_eq_flatMap, List.length_flatMap, List.map_congr_left hone, List.map_const',
    List.sum_replicate_nat, mul_one, String.length_toList]

theorem append_cons_inj {α : Type} {a : α} {front front' back back' : List α} (hback : a ∉ back)
    (hback' : a ∉ back') (h : front ++ a :: back = front' ++ a :: back') :
    front = front' ∧ back = back' := by
  have hshort (mid : List α) {x y : List α} (hx : a ∉ x) (hmid : a :: x = mid ++ a :: y) :
      mid = [] := by
    cases mid with
    | nil => rfl
    | cons b mid =>
        rw [List.cons_append, List.cons.injEq] at hmid
        exact absurd (hmid.2 ▸ List.mem_append_right mid List.mem_cons_self) hx
  rcases List.append_eq_append_iff.mp h with ⟨mid, hfront, hmid⟩ | ⟨mid, hfront, hmid⟩
  · have hnil := hshort mid hback hmid
    rw [hnil, List.append_nil] at hfront
    rw [hnil, List.nil_append, List.cons.injEq] at hmid
    exact ⟨hfront.symm, hmid.2⟩
  · have hnil := hshort mid hback' hmid
    rw [hnil, List.append_nil] at hfront
    rw [hnil, List.nil_append, List.cons.injEq] at hmid
    exact ⟨hfront, hmid.2.symm⟩

theorem rawLines_cons_line (hline : 10 ∉ line) :
    rawLines (line ++ 10 :: rest) = (line ++ [10]) :: rawLines rest := by
  induction line with
  | nil => rfl
  | cons byte line ih =>
      have hbyte : byte ≠ 10 := fun h => hline (by rw [h]; exact List.mem_cons_self)
      have hrest := ih fun h => hline (List.mem_cons_of_mem _ h)
      rw [List.cons_append, rawLines, if_neg hbyte, hrest]
      rfl

theorem rawLines_last (hline : 10 ∉ line) (hne : line ≠ []) : rawLines line = [line] := by
  induction line with
  | nil => exact absurd rfl hne
  | cons byte line ih =>
      have hbyte : byte ≠ 10 := fun h => hline (by rw [h]; exact List.mem_cons_self)
      have htail : 10 ∉ line := fun h => hline (List.mem_cons_of_mem _ h)
      rw [rawLines, if_neg hbyte]
      cases line with
      | nil => rfl
      | cons next line => rw [ih htail (List.cons_ne_nil _ _)]

theorem chomp_newline (hline : 13 ∉ line) : chomp (line ++ [10]) = line := by
  have hnot : 13 ∉ line.reverse := fun h => hline (List.mem_reverse.mp h)
  have hreverse : (line ++ [10]).reverse = 10 :: line.reverse := List.reverse_append
  unfold chomp
  split
  · next heq =>
      rw [hreverse, List.cons.injEq] at heq
      rw [heq.2] at hnot
      exact absurd List.mem_cons_self hnot
  · next heq =>
      rw [hreverse, List.cons.injEq] at heq
      rw [← heq.2, List.reverse_reverse]
  · next hother => exact absurd hreverse (hother _)

theorem chomp_of_not_mem (hline : 10 ∉ line) : chomp line = line := by
  have hnot : 10 ∉ line.reverse := fun h => hline (List.mem_reverse.mp h)
  unfold chomp
  split
  · next heq =>
      rw [heq] at hnot
      exact absurd List.mem_cons_self hnot
  · next heq =>
      rw [heq] at hnot
      exact absurd List.mem_cons_self hnot
  · rfl

end Utf8Lines
