import Mathlib.Data.Nat.Digits.Defs
import Mathlib.Data.String.Basic

set_option autoImplicit false

namespace FileMirror

/-- `format!("{n:0width$}")`. -/
def padded (width n : ℕ) : List Char :=
  List.replicate (width - (Nat.toDigits 10 n).length) '0' ++ Nat.toDigits 10 n

/-- `format!("snapshot/generation{:020}.snap", generation)`. -/
def snapshotKey (generation : ℕ) : String :=
  String.ofList ("snapshot/generation".toList ++ (padded 20 generation ++ ".snap".toList))

/-- `format!("log/lamport:{lamport:020}-{device_id}-{seq:04}.delta")`. -/
def deltaKey (lamport : ℕ) (deviceId : String) (seq : ℕ) : String :=
  String.ofList ("log/lamport:".toList ++ (padded 20 lamport ++
    '-' :: (deviceId.toList ++ '-' :: (padded 4 seq ++ ".delta".toList))))

theorem ofDigitChars_padded (width n : ℕ) : Nat.ofDigitChars 10 (padded width n) 0 = n := by
  rw [padded, Nat.ofDigitChars_append, Nat.ofDigitChars_replicate_zero, Nat.mul_zero,
    Nat.ofDigitChars_ten_toDigits]

theorem padded_injective (width : ℕ) : Function.Injective (padded width) := by
  intro m n h
  rw [← ofDigitChars_padded width m, h, ofDigitChars_padded]

theorem isDigit_of_mem_padded {width n : ℕ} {c : Char} (h : c ∈ padded width n) : c.isDigit := by
  rcases List.mem_append.mp h with h | h
  · rw [List.eq_of_mem_replicate h]
    rfl
  · exact Nat.isDigit_of_mem_toDigits (by decide) (by decide) h

theorem length_padded {width n : ℕ} (hwidth : 0 < width) (hn : n < 10 ^ width) :
    (padded width n).length = width := by
  have h := Nat.toDigits_length 10 n width hwidth hn
  rw [padded, List.length_append, List.length_replicate]
  omega

theorem takeWhile_digits {digits rest : List Char} {mark : Char}
    (hdigits : ∀ c ∈ digits, c.isDigit) (hmark : mark.isDigit = false) :
    (digits ++ mark :: rest).takeWhile Char.isDigit = digits := by
  rw [List.takeWhile_append_of_pos hdigits, List.takeWhile_cons_of_neg (by simp [hmark]),
    List.append_nil]

theorem digits_mark_inj {digits digits' rest rest' : List Char} {mark : Char}
    (hdigits : ∀ c ∈ digits, c.isDigit) (hdigits' : ∀ c ∈ digits', c.isDigit)
    (hmark : mark.isDigit = false) (h : digits ++ mark :: rest = digits' ++ mark :: rest') :
    digits = digits' ∧ rest = rest' := by
  have heq : digits = digits' := by
    rw [← takeWhile_digits hdigits hmark, h, takeWhile_digits hdigits' hmark]
  subst heq
  exact ⟨rfl, List.cons.inj (List.append_cancel_left h) |>.2⟩

theorem keyText_injective {head tail device device' : List Char} {w w' m m' n n' : ℕ}
    (h : head ++ (padded w m ++ '-' :: (device ++ '-' :: (padded w' n ++ tail))) =
      head ++ (padded w m' ++ '-' :: (device' ++ '-' :: (padded w' n' ++ tail)))) :
    m = m' ∧ device = device' ∧ n = n' := by
  obtain ⟨hm, hrest⟩ := digits_mark_inj (fun _ => isDigit_of_mem_padded)
    (fun _ => isDigit_of_mem_padded) (by decide) (List.append_cancel_left h)
  have hreverse := congrArg List.reverse hrest
  simp only [List.reverse_append, List.reverse_cons, List.append_assoc,
    List.append_cancel_left_eq, List.singleton_append] at hreverse
  obtain ⟨hn, hdevice⟩ := digits_mark_inj
    (fun _ hc => isDigit_of_mem_padded (List.mem_reverse.mp hc))
    (fun _ hc => isDigit_of_mem_padded (List.mem_reverse.mp hc)) (by decide) hreverse
  exact ⟨padded_injective w hm, List.reverse_injective hdevice,
    padded_injective w' (List.reverse_injective hn)⟩

theorem deltaKey_injective {lamport lamport' seq seq' : ℕ} {deviceId deviceId' : String}
    (h : deltaKey lamport deviceId seq = deltaKey lamport' deviceId' seq') :
    lamport = lamport' ∧ deviceId = deviceId' ∧ seq = seq' := by
  obtain ⟨hlamport, hdevice, hseq⟩ := keyText_injective (String.ofList_injective h)
  exact ⟨hlamport, String.toList_injective hdevice, hseq⟩

theorem ofDigitChars_cons_zero (c : Char) (cs : List Char) :
    Nat.ofDigitChars 10 (c :: cs) 0 =
      10 ^ cs.length * (c.toNat - 48) + Nat.ofDigitChars 10 cs 0 := by
  rw [Nat.ofDigitChars_cons, Nat.ofDigitChars_eq_ofDigitChars_zero, Nat.mul_zero, Nat.zero_add]
  rfl

theorem ofDigitChars_lt {cs : List Char} (hcs : ∀ c ∈ cs, c.isDigit) :
    Nat.ofDigitChars 10 cs 0 < 10 ^ cs.length := by
  induction cs with
  | nil => simp
  | cons c cs ih =>
      have htail := ih fun d hd => hcs d (List.mem_cons_of_mem _ hd)
      have hdigit := Char.isDigit_iff_toNat.mp (hcs c (List.mem_cons_self ..))
      have hc : c.toNat - 48 ≤ 9 := by
        have h9 : '9'.toNat = 57 := rfl
        omega
      rw [ofDigitChars_cons_zero, List.length_cons, pow_succ]
      have := Nat.mul_le_mul_left (10 ^ cs.length) hc
      omega

theorem digitChars_lt_iff {as bs : List Char} (has : ∀ c ∈ as, c.isDigit)
    (hbs : ∀ c ∈ bs, c.isDigit) (hlength : as.length = bs.length) :
    as < bs ↔ Nat.ofDigitChars 10 as 0 < Nat.ofDigitChars 10 bs 0 := by
  induction as generalizing bs with
  | nil =>
      obtain rfl := List.length_eq_zero_iff.mp hlength.symm
      simp
  | cons a as ih =>
      cases bs with
      | nil => cases hlength
      | cons b bs =>
          have hlen : as.length = bs.length := Nat.succ.inj hlength
          have hasTail : ∀ c ∈ as, c.isDigit := fun c hc => has c (List.mem_cons_of_mem _ hc)
          have hbsTail : ∀ c ∈ bs, c.isDigit := fun c hc => hbs c (List.mem_cons_of_mem _ hc)
          have ha := Char.isDigit_iff_toNat.mp (has a (List.mem_cons_self ..))
          have hb := Char.isDigit_iff_toNat.mp (hbs b (List.mem_cons_self ..))
          have h0 : '0'.toNat = 48 := rfl
          have hasLt := ofDigitChars_lt hasTail
          have hbsLt := ofDigitChars_lt hbsTail
          rw [List.cons_lt_cons_iff, ih hasTail hbsTail hlen, ofDigitChars_cons_zero,
            ofDigitChars_cons_zero, hlen]
          rw [hlen] at hasLt
          rcases lt_trichotomy a b with hab | rfl | hab
          · have hnum : a.toNat < b.toNat := hab
            have hmul := Nat.mul_le_mul_left (10 ^ bs.length)
              (show a.toNat - 48 + 1 ≤ b.toNat - 48 by omega)
            rw [Nat.mul_add, Nat.mul_one] at hmul
            exact iff_of_true (.inl hab) (by omega)
          · simp
          · have hnum : b.toNat < a.toNat := hab
            have hmul := Nat.mul_le_mul_left (10 ^ bs.length)
              (show b.toNat - 48 + 1 ≤ a.toNat - 48 by omega)
            rw [Nat.mul_add, Nat.mul_one] at hmul
            refine iff_of_false ?_ (by omega)
            rintro (hlt | ⟨rfl, -⟩)
            · exact lt_asymm hab hlt
            · exact lt_irrefl _ hab

theorem append_lt_append_iff {as bs tail : List Char} (hlength : as.length = bs.length) :
    as ++ tail < bs ++ tail ↔ as < bs := by
  induction as generalizing bs with
  | nil =>
      obtain rfl := List.length_eq_zero_iff.mp hlength.symm
      simp
  | cons a as ih =>
      cases bs with
      | nil => cases hlength
      | cons b bs =>
          rw [List.cons_append, List.cons_append, List.cons_lt_cons_iff, List.cons_lt_cons_iff,
            ih (Nat.succ.inj hlength)]

theorem append_lt_append_left_iff {head as bs : List Char} :
    head ++ as < head ++ bs ↔ as < bs := by
  induction head with
  | nil => rfl
  | cons c head ih => rw [List.cons_append, List.cons_append, List.cons_lt_cons_self, ih]

theorem padded_lt_iff {width m n : ℕ} (hwidth : 0 < width) (hm : m < 10 ^ width)
    (hn : n < 10 ^ width) : padded width m < padded width n ↔ m < n := by
  have hlength : (padded width m).length = (padded width n).length :=
    (length_padded hwidth hm).trans (length_padded hwidth hn).symm
  rw [digitChars_lt_iff (fun _ => isDigit_of_mem_padded) (fun _ => isDigit_of_mem_padded) hlength,
    ofDigitChars_padded, ofDigitChars_padded]

theorem numberText_lt_iff {head tail : List Char} {width m n : ℕ} (hwidth : 0 < width)
    (hm : m < 10 ^ width) (hn : n < 10 ^ width) :
    String.ofList (head ++ (padded width m ++ tail)) <
      String.ofList (head ++ (padded width n ++ tail)) ↔ m < n := by
  have hlength : (padded width m).length = (padded width n).length :=
    (length_padded hwidth hm).trans (length_padded hwidth hn).symm
  rw [String.lt_iff_toList_lt, String.toList_ofList, String.toList_ofList,
    append_lt_append_left_iff, append_lt_append_iff hlength, padded_lt_iff hwidth hm hn]

theorem snapshotKey_lt_iff {m n : ℕ} (hm : m < 2 ^ 64) (hn : n < 2 ^ 64) :
    snapshotKey m < snapshotKey n ↔ m < n :=
  numberText_lt_iff (by decide) (hm.trans (by decide)) (hn.trans (by decide))

end FileMirror
