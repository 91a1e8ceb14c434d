import FileMirror.LocalTree
import FileMirror.Utf8Lines

set_option autoImplicit false

namespace FileMirror

open Utf8Lines

/-- How `serde_json` writes a character of a string. -/
def jsonChar (c : Char) : List Char :=
  if c = '"' then ['\\', '"']
  else if c = '\\' then ['\\', '\\']
  else if c = '\x08' then ['\\', 'b']
  else if c = '\t' then ['\\', 't']
  else if c = '\n' then ['\\', 'n']
  else if c = '\x0c' then ['\\', 'f']
  else if c = '\r' then ['\\', 'r']
  else if c.toNat < 32 then
    ['\\', 'u', '0', '0', Nat.digitChar (c.toNat / 16), Nat.digitChar (c.toNat % 16)]
  else [c]

def jsonString (s : String) : List Char := '"' :: s.toList.flatMap jsonChar ++ ['"']

def jsonNat (n : ℕ) : List Char := Nat.toDigits 10 n

def jsonInt : ℤ → List Char
  | .ofNat n => jsonNat n
  | .negSucc n => '-' :: jsonNat (n + 1)

def StubMeta.jsonChars (stub : StubMeta) : List Char :=
  "\x7b\"rfm\":".toList ++ jsonNat stub.rfm ++ ",\"path\":".toList ++ jsonString stub.path ++
    ",\"size\":".toList ++ jsonNat stub.size ++ ",\"hash\":".toList ++ jsonString stub.hash ++
    ",\"object_key\":".toList ++ jsonString stub.objectKey ++
    ",\"evicted_at\":".toList ++ jsonNat stub.evictedAt ++
    stub.mtimeNs.elim [] (",\"mtime_ns\":".toList ++ jsonInt ·) ++
    stub.mode.elim [] (",\"mode\":".toList ++ jsonNat ·) ++ ['\x7d']

def StubMeta.json (stub : StubMeta) : String := String.ofList stub.jsonChars

/-- What `placeholder::write` puts in the file. -/
def StubMeta.bytes (stub : StubMeta) : List UInt8 := utf8 (stub.json ++ "\n")

def isWhitespace (c : Char) : Bool :=
  (9 ≤ c.toNat && c.toNat ≤ 13) || (0x2000 ≤ c.toNat && c.toNat ≤ 0x200a) ||
    c.toNat ∈ [0x20, 0x85, 0xa0, 0x1680, 0x2028, 0x2029, 0x202f, 0x205f, 0x3000]

def trim (s : String) : String :=
  String.ofList ((s.toList.dropWhile isWhitespace).reverse.dropWhile isWhitespace).reverse

/-- `placeholder::FORMAT` -/
def stubFormat : ℕ := 1

/-- `placeholder::read`, where `fromStr` is the parser. -/
def readStub (fromStr : String → Option StubMeta) (bytes : List UInt8) : Option StubMeta :=
  let taken := bytes.take (maxStubLen + 1)
  match fromUtf8 taken with
  | none => none
  | some text =>
      if maxStubLen < taken.length then none
      else (fromStr (trim text)).filter fun stub => stub.rfm = stubFormat

section Lengths

variable {stub : StubMeta} {l m : List Char}

def utf8Length (l : List Char) : ℕ := (l.map Char.utf8Size).sum

theorem length_utf8_ofList (l : List Char) : (utf8 (String.ofList l)).length = utf8Length l := by
  rw [utf8_eq_flatMap, String.toList_ofList, List.length_flatMap, utf8Length]
  simp only [String.length_utf8EncodeChar]

theorem utf8Length_append : utf8Length (l ++ m) = utf8Length l + utf8Length m := by
  rw [utf8Length, List.map_append, List.sum_append]
  rfl

theorem utf8Length_cons (c : Char) : utf8Length (c :: l) = c.utf8Size + utf8Length l := by
  rw [utf8Length, List.map_cons, List.sum_cons]
  rfl

theorem utf8Length_ascii (h : ∀ c ∈ l, c.utf8Size = 1) : utf8Length l = l.length := by
  rw [utf8Length, List.map_congr_left h, List.map_const', List.sum_replicate_nat, mul_one]

theorem utf8Length_jsonChar (c : Char) : utf8Length (jsonChar c) = jsonCharLen c := by
  have hchar (e : Char) : c = e ↔ c.toNat = e.toNat := Char.toNat_inj.symm
  have hdigit : ∀ d < 16, (Nat.digitChar d).utf8Size = 1 := by decide
  unfold jsonCharLen
  split_ifs with hspecial hcontrol
  · have hcases : c = '"' ∨ c = '\\' ∨ c = '\x08' ∨ c = '\t' ∨ c = '\n' ∨ c = '\x0c' ∨ c = '\r' := by
      simp only [List.mem_cons, List.not_mem_nil, or_false] at hspecial
      simp only [hchar]
      exact hspecial
    rcases hcases with rfl | rfl | rfl | rfl | rfl | rfl | rfl <;> rfl
  all_goals
    have hother (e : Char) (he : e.toNat ∈ [34, 92, 8, 9, 10, 12, 13]) : c ≠ e := by
      rintro rfl
      exact hspecial he
    rw [jsonChar, if_neg (hother _ (by decide)), if_neg (hother _ (by decide)),
      if_neg (hother _ (by decide)), if_neg (hother _ (by decide)), if_neg (hother _ (by decide)),
      if_neg (hother _ (by decide)), if_neg (hother _ (by decide))]
  · have hback : '\\'.utf8Size = 1 := rfl
    have hu : 'u'.utf8Size = 1 := rfl
    have hzero : '0'.utf8Size = 1 := rfl
    rw [if_pos hcontrol]
    simp only [utf8Length, List.map_cons, List.map_nil, List.sum_cons, List.sum_nil, hback, hu,
      hzero, hdigit (c.toNat / 16) (by omega), hdigit (c.toNat % 16) (by omega), Nat.reduceAdd]
  · rw [if_neg hcontrol]
    exact Nat.add_zero _

theorem utf8Length_jsonString (s : String) : utf8Length (jsonString s) = jsonStringLen s := by
  have hchars : ∀ cs : List Char, utf8Length (cs.flatMap jsonChar) = (cs.map jsonCharLen).sum := by
    intro cs
    induction cs with
    | nil => rfl
    | cons c cs ih =>
        rw [List.flatMap_cons, utf8Length_append, utf8Length_jsonChar, ih, List.map_cons,
          List.sum_cons]
  have hquote : utf8Length ['"'] = 1 := by decide
  have hopen : '"'.utf8Size = 1 := by decide
  rw [jsonString, List.cons_append, utf8Length_cons, utf8Length_append, hchars, hquote, hopen,
    jsonStringLen]
  omega

theorem utf8Length_jsonNat (n : ℕ) : utf8Length (jsonNat n) = jsonNatLen n := by
  refine utf8Length_ascii fun c hc => ?_
  have hdigit := Nat.isDigit_of_mem_toDigits (by decide) (by decide) hc
  rw [Char.isDigit, Bool.and_eq_true, decide_eq_true_eq, decide_eq_true_eq] at hdigit
  have hnine : ('9' : Char).val ≤ 127 := by decide
  exact Char.utf8Size_eq_one_iff.mpr (UInt32.le_trans hdigit.2 hnine)

theorem utf8Length_jsonInt (n : ℤ) : utf8Length (jsonInt n) = jsonIntLen n := by
  cases n with
  | ofNat n => exact utf8Length_jsonNat n
  | negSucc n =>
      have hsign : '-'.utf8Size = 1 := by decide
      rw [jsonInt, utf8Length_cons, utf8Length_jsonNat, hsign, jsonIntLen, Nat.add_comm]

theorem utf8Length_field {α : Type} (field : Option α) (value : α → List Char) (name : List Char)
    {n : ℕ} {length : α → ℕ} (hname : utf8Length name = n)
    (hvalue : ∀ a, utf8Length (value a) = length a) :
    utf8Length (field.elim [] fun a => name ++ value a) = field.elim 0 fun a => n + length a := by
  cases field with
  | none => rfl
  | some a => rw [Option.elim_some, Option.elim_some, utf8Length_append, hname, hvalue]

theorem StubMeta.length_bytes (stub : StubMeta) : stub.bytes.length = stub.textLen := by
  have hnewline : (utf8 "\n").length = 1 := rfl
  have hstart : utf8Length "\x7b\"rfm\":".toList = 7 := by decide +kernel
  have hpath : utf8Length ",\"path\":".toList = 8 := by decide +kernel
  have hsize : utf8Length ",\"size\":".toList = 8 := by decide +kernel
  have hhash : utf8Length ",\"hash\":".toList = 8 := by decide +kernel
  have hkey : utf8Length ",\"object_key\":".toList = 14 := by decide +kernel
  have hevicted : utf8Length ",\"evicted_at\":".toList = 14 := by decide +kernel
  have hmtime : utf8Length ",\"mtime_ns\":".toList = 12 := by decide +kernel
  have hmode : utf8Length ",\"mode\":".toList = 8 := by decide +kernel
  have hend : utf8Length ['\x7d'] = 1 := by decide +kernel
  have hmtimes := utf8Length_field stub.mtimeNs jsonInt _ hmtime utf8Length_jsonInt
  have hmodes := utf8Length_field stub.mode jsonNat _ hmode utf8Length_jsonNat
  unfold StubMeta.bytes StubMeta.json
  rw [utf8_append, List.length_append, hnewline, length_utf8_ofList]
  unfold StubMeta.jsonChars
  rw [utf8Length_append, hend, utf8Length_append, hmodes, utf8Length_append, hmtimes]
  simp only [utf8Length_append, utf8Length_jsonNat, utf8Length_jsonString, hstart, hpath, hsize,
    hhash, hkey, hevicted]
  unfold StubMeta.textLen
  omega

end Lengths

section Reading

variable {fromStr : String → Option StubMeta} {stub : StubMeta}

theorem trim_line {text : List Char} {first last : Char} {mid : List Char}
    (htext : text = first :: mid ++ [last]) (hfirst : isWhitespace first = false)
    (hlast : isWhitespace last = false) :
    trim (String.ofList text ++ "\n") = String.ofList text := by
  have hchars : (String.ofList text ++ "\n").toList = first :: (mid ++ [last] ++ ['\n']) := by
    rw [String.toList_append, String.toList_ofList, htext]
    rfl
  have hreverse : (first :: (mid ++ [last] ++ ['\n'])).reverse =
      '\n' :: last :: (mid.reverse ++ [first]) := by
    rw [List.reverse_cons, List.reverse_append, List.reverse_append]
    rfl
  have hnewline : isWhitespace '\n' = true := by decide
  unfold trim
  rw [hchars, List.dropWhile_cons_of_neg (by rw [hfirst]; exact Bool.false_ne_true), hreverse,
    List.dropWhile_cons_of_pos hnewline,
    List.dropWhile_cons_of_neg (by rw [hlast]; exact Bool.false_ne_true), List.reverse_cons,
    List.reverse_append, List.reverse_reverse, htext]
  rfl

theorem StubMeta.trim_json (stub : StubMeta) : trim (stub.json ++ "\n") = stub.json := by
  have hopen : "\x7b\"rfm\":".toList = '\x7b' :: "\"rfm\":".toList := by decide +kernel
  have hbraces : ∃ mid, stub.jsonChars = '\x7b' :: mid ++ ['\x7d'] := by
    unfold StubMeta.jsonChars
    rw [hopen]
    exact ⟨_, rfl⟩
  obtain ⟨mid, hmid⟩ := hbraces
  exact trim_line hmid (by decide) (by decide)

theorem readStub_bytes (hparse : fromStr stub.json = some stub) (hformat : stub.rfm = stubFormat) :
    readStub fromStr stub.bytes = if stub.textLen ≤ maxStubLen then some stub else none := by
  have hlength := stub.length_bytes
  unfold readStub
  split_ifs with hfits
  · rw [List.take_of_length_le (by omega)]
    unfold StubMeta.bytes at hlength ⊢
    dsimp only
    rw [fromUtf8_utf8]
    dsimp only
    rw [if_neg (by omega), stub.trim_json, hparse, Option.filter_some,
      if_pos (decide_eq_true hformat)]
  · have hlong : (stub.bytes.take (maxStubLen + 1)).length = maxStubLen + 1 := by
      rw [List.length_take]
      omega
    dsimp only
    cases fromUtf8 (stub.bytes.take (maxStubLen + 1)) with
    | none => rfl
    | some text =>
        dsimp only
        rw [if_pos (by omega)]

end Reading

end FileMirror
