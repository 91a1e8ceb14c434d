import Mathlib.Data.List.Basic
import Mathlib.Data.List.Flatten
import Mathlib.Data.Nat.Digits.Defs
import Mathlib.Data.Nat.Digits.Lemmas

set_option autoImplicit false

namespace FileMirror

def toLe (width : ℕ) (n : ℕ) : List UInt8 :=
  (List.range width).map fun i => UInt8.ofNat (n / 256 ^ i)

def ofLe (bytes : List UInt8) : ℕ := Nat.ofDigits 256 (bytes.map UInt8.toNat)

def pieces {β : Type} (size : ℕ) : ℕ → List β → List (List β)
  | 0, _ => []
  | count + 1, l => l.take size :: pieces size count (l.drop size)

def chunksExact {β : Type} (size : ℕ) (l : List β) : List (List β) :=
  pieces size (l.length / size) l

section Numbers

variable {width n : ℕ} {byte : UInt8} {bytes : List UInt8}

theorem length_toLe : (toLe width n).length = width := by
  rw [toLe, List.length_map, List.length_range]

theorem toLe_succ : toLe (width + 1) n = UInt8.ofNat n :: toLe width (n / 256) := by
  unfold toLe
  rw [List.range_succ_eq_map, List.map_cons, List.map_map, Nat.pow_zero, Nat.div_one]
  congr 1
  apply List.map_congr_left
  intro i _
  rw [Function.comp_apply, Nat.pow_succ, Nat.mul_comm, Nat.div_div_eq_div_mul]

theorem ofLe_cons : ofLe (byte :: bytes) = byte.toNat + 256 * ofLe bytes := by
  unfold ofLe
  rw [List.map_cons, Nat.ofDigits_cons]

theorem ofLe_lt : ofLe bytes < 256 ^ bytes.length := by
  have hdigits : ∀ digit ∈ bytes.map UInt8.toNat, digit < 256 := by
    intro digit hdigit
    obtain ⟨byte, _, rfl⟩ := List.mem_map.mp hdigit
    exact byte.toNat_lt
  have hlt := Nat.ofDigits_lt_base_pow_length (b := 256) (by decide) hdigits
  rwa [List.length_map] at hlt

theorem ofLe_toLe (h : n < 256 ^ width) : ofLe (toLe width n) = n := by
  induction width generalizing n with
  | zero =>
      rw [Nat.pow_zero, Nat.lt_one_iff] at h
      rw [h]
      rfl
  | succ width ih =>
      have hrest : n / 256 < 256 ^ width := by
        rw [Nat.div_lt_iff_lt_mul (by decide), ← Nat.pow_succ]
        exact h
      rw [toLe_succ, ofLe_cons, ih hrest, UInt8.toNat_ofNat']
      omega

theorem toLe_ofLe (bytes : List UInt8) : toLe bytes.length (ofLe bytes) = bytes := by
  induction bytes with
  | nil => rfl
  | cons byte bytes ih =>
      have hbyte := byte.toNat_lt
      have hdiv : (byte.toNat + 256 * ofLe bytes) / 256 = ofLe bytes := by omega
      have hfirst : UInt8.ofNat (byte.toNat + 256 * ofLe bytes) = byte := by
        rw [← UInt8.toNat_inj, UInt8.toNat_ofNat']
        omega
      rw [List.length_cons, toLe_succ, ofLe_cons, hdiv, ih, hfirst]

end Numbers

section Pieces

variable {β : Type} {size count : ℕ} {l : List β} {parts : List (List β)}

theorem length_pieces : (pieces size count l).length = count := by
  induction count generalizing l with
  | zero => rfl
  | succ count ih => rw [pieces, List.length_cons, ih]

theorem pieces_flatten (hlen : l.length = size * count) : (pieces size count l).flatten = l := by
  induction count generalizing l with
  | zero =>
      rw [Nat.mul_zero, List.length_eq_zero_iff] at hlen
      rw [hlen]
      rfl
  | succ count ih =>
      have hrest : (l.drop size).length = size * count := by
        rw [List.length_drop, hlen, Nat.mul_succ, Nat.add_sub_cancel]
      rw [pieces, List.flatten_cons, ih hrest, List.take_append_drop]

theorem length_of_mem_pieces (hlen : l.length = size * count) :
    ∀ part ∈ pieces size count l, part.length = size := by
  induction count generalizing l with
  | zero => nofun
  | succ count ih =>
      have hrest : (l.drop size).length = size * count := by
        rw [List.length_drop, hlen, Nat.mul_succ, Nat.add_sub_cancel]
      rw [pieces, List.forall_mem_cons]
      refine ⟨?_, ih hrest⟩
      rw [List.length_take, hlen, Nat.mul_succ]
      omega

theorem pieces_of_flatten (hparts : ∀ part ∈ parts, part.length = size) :
    pieces size parts.length parts.flatten = parts := by
  induction parts with
  | nil => rfl
  | cons part parts ih =>
      obtain ⟨hpart, hparts⟩ := List.forall_mem_cons.mp hparts
      rw [List.length_cons, pieces, List.flatten_cons, ← hpart, List.take_left, List.drop_left,
        hpart, ih hparts]

end Pieces

end FileMirror
