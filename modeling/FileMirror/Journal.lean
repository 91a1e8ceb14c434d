import FileMirror.LocalPaths
import FileMirror.PackFormat
import FileMirror.TreeFormat
import FileMirror.Utf8Lines

set_option autoImplicit false

namespace FileMirror.Journal

open PackFormat Utf8Lines

structure Entry where
  path : String
  node : TreeFormat.Node
  deriving DecidableEq

structure JournalSerde where
  toString : Entry → String
  fromStr : String → Option Entry

def macContext : List UInt8 := utf8 "rfm-backup:v1:journal\x00"

def mac (keys : Keys) (json : String) : String := hashText (keys.blobId (macContext ++ utf8 json))

def parse (keys : Keys) (serde : JournalSerde) (line : String) : Option Entry :=
  match rsplitOnce '\t' line.toList with
  | none => none
  | some (json, tag) =>
      if mac keys (.ofList json) ≠ .ofList tag then none else serde.fromStr (.ofList json)

def read (keys : Keys) (serde : JournalSerde) (bytes : List UInt8) : List Entry :=
  (mapWhile id (lines bytes)).filterMap (parse keys serde)

/-- `none` is a journal that is missing. -/
def load (keys : Keys) (serde : JournalSerde) (file : Option (List UInt8)) : List Entry :=
  match file with
  | none => []
  | some bytes => read keys serde bytes

def body (keys : Keys) (serde : JournalSerde) (entry : Entry) : String :=
  let json := serde.toString entry
  json ++ "\t" ++ mac keys json

/-- What `Writer::record` writes at once. -/
def line (keys : Keys) (serde : JournalSerde) (entry : Entry) : List UInt8 :=
  utf8 (body keys serde entry ++ "\n")

/-- The entries of a run in the order of their writes, and the byte its output ends before. -/
structure Run where
  entries : List Entry
  cut : ℕ

def Run.output (keys : Keys) (serde : JournalSerde) (run : Run) : List UInt8 :=
  (run.entries.flatMap (line keys serde)).take run.cut

/-- `Writer::open` creates the file or keeps what is in it. -/
def append (keys : Keys) (serde : JournalSerde) (file : Option (List UInt8)) (run : Run) :
    Option (List UInt8) :=
  some (file.getD [] ++ run.output keys serde)

def journal (keys : Keys) (serde : JournalSerde) (runs : List Run) : Option (List UInt8) :=
  runs.foldl (append keys serde) none

section Cut

variable (keys : Keys) (serde : JournalSerde)

/-- The entries whose lines are complete in the first `cut` bytes. -/
def completeIn : ℕ → List Entry → List Entry
  | _, [] => []
  | cut, entry :: rest =>
      if (line keys serde entry).length ≤ cut then
        entry :: completeIn (cut - (line keys serde entry).length) rest
      else []

def tornIn : ℕ → List Entry → List UInt8
  | _, [] => []
  | cut, entry :: rest =>
      if (line keys serde entry).length ≤ cut then
        tornIn (cut - (line keys serde entry).length) rest
      else (line keys serde entry).take cut

def Run.complete (run : Run) : List Entry := completeIn keys serde run.cut run.entries

def Run.torn (run : Run) : List UInt8 := tornIn keys serde run.cut run.entries

/-- Complete lines are kept in their order, and nothing else appears. -/
structure Keeps (runs : List Run) : Prop where
  complete : (runs.flatMap (Run.complete keys serde)).Sublist
    (load keys serde (journal keys serde runs))
  recorded : ∀ e ∈ load keys serde (journal keys serde runs), ∃ run ∈ runs, e ∈ run.entries

def Unmerged (runs : List Run) : Prop :=
  runs.Pairwise fun run later => run.torn keys serde = [] ∨ later.complete keys serde = []

/-- What `serde_json` makes of an entry, and a keyed hash that no other text has. -/
structure Recordable (e : Entry) : Prop where
  printable : ∀ c ∈ (serde.toString e).toList, ' ' ≤ c
  opens : '\x7b' ∈ (serde.toString e).toList.head?
  reads : serde.fromStr (serde.toString e) = some e
  unforged : ∀ json, keys.blobId (macContext ++ utf8 json) =
    keys.blobId (macContext ++ utf8 (serde.toString e)) → json = serde.toString e

end Cut

section Text

variable {hash other : ContentHash} {c : Char}

theorem mem_toDigits {n : ℕ} (h : c ∈ Nat.toDigits 16 n) : ∃ d < 16, c = Nat.digitChar d := by
  induction n using Nat.base_induction 16 (by decide) with
  | single d hd =>
      rw [Nat.toDigits_of_lt_base hd, List.mem_singleton] at h
      exact ⟨d, hd, h⟩
  | digit n d hd hn ih =>
      rw [← Nat.toDigits_append_toDigits (by decide) hn hd, Nat.toDigits_of_lt_base hd,
        List.mem_append, List.mem_singleton] at h
      rcases h with h | h
      · exact ih h
      · exact ⟨d, hd, h⟩

theorem mem_hashText (h : c ∈ (hashText hash).toList) : '0' ≤ c ∧ c ≤ 'f' := by
  have hdigit : ∀ d < 16, '0' ≤ Nat.digitChar d ∧ Nat.digitChar d ≤ 'f' := by decide
  unfold hashText at h
  rw [String.toList_ofList, List.mem_append] at h
  rcases h with h | h
  · rw [List.eq_of_mem_replicate h]
    decide
  · obtain ⟨d, hd, rfl⟩ := mem_toDigits h
    exact hdigit d hd

theorem length_hashText : (hashText hash).length = 64 := by
  have hle : (Nat.toDigits 16 hash.val).length ≤ 64 := by
    rw [Nat.length_toDigits_le_iff (by decide) (by decide)]
    have hlt := hash.isLt
    omega
  unfold hashText
  rw [String.length_ofList, List.length_append, List.length_replicate]
  omega

theorem not_mem_hashText {byte : UInt8} (hbyte : byte.toNat < 48 ∨ 102 < byte.toNat)
    (hascii : byte.toNat < 128) : byte ∉ utf8 (hashText hash) := by
  intro h
  obtain ⟨c, hc, heq⟩ := (mem_utf8 hascii).mp h
  obtain ⟨hlow, hhigh⟩ := mem_hashText hc
  have hlow' : 48 ≤ c.toNat := hlow
  have hhigh' : c.toNat ≤ 102 := hhigh
  omega

theorem length_utf8_hashText : (utf8 (hashText hash)).length = 64 := by
  rw [length_utf8, length_hashText]
  intro c hc
  have hhigh : c.toNat ≤ 102 := (mem_hashText hc).2
  omega

end Text

section Lines

variable {keys : Keys} {serde : JournalSerde} {e x : Entry} {text : String} {byte : UInt8}
  {g rest : List UInt8}

def jsonBytes (serde : JournalSerde) (e : Entry) : List UInt8 := utf8 (serde.toString e)

theorem utf8_body : utf8 (body keys serde e) =
    jsonBytes serde e ++ 9 :: utf8 (mac keys (serde.toString e)) := by
  unfold body
  rw [utf8_append, utf8_append, List.append_assoc]
  rfl

theorem line_eq : line keys serde e = utf8 (body keys serde e) ++ [10] := by
  rw [line, utf8_append]
  rfl

theorem Recordable.not_mem_json (he : Recordable keys serde e) (hbyte : byte.toNat < 32) :
    byte ∉ jsonBytes serde e := by
  intro h
  obtain ⟨c, hc, heq⟩ := (mem_utf8 (by omega)).mp h
  have hspace : 32 ≤ c.toNat := he.printable c hc
  omega

theorem Recordable.json_cons (he : Recordable keys serde e) :
    ∃ more, jsonBytes serde e = 123 :: more := by
  have hopens := he.opens
  unfold jsonBytes
  rw [utf8_eq_flatMap]
  cases hjson : (serde.toString e).toList with
  | nil =>
      rw [hjson] at hopens
      cases hopens
  | cons c more =>
      rw [hjson, List.head?_cons, Option.mem_some_iff] at hopens
      rw [hopens, List.flatMap_cons]
      exact ⟨_, rfl⟩

theorem Recordable.not_mem_body (he : Recordable keys serde e) (hbyte : byte.toNat < 32)
    (htab : byte ≠ 9) : byte ∉ utf8 (body keys serde e) := by
  rw [utf8_body, List.mem_append, List.mem_cons, not_or, not_or]
  exact ⟨he.not_mem_json hbyte, htab, not_mem_hashText (.inl (by omega)) (by omega)⟩

theorem parse_eq_some : parse keys serde text = some x ↔
    ∃ json, utf8 text = utf8 json ++ 9 :: utf8 (mac keys json) ∧ serde.fromStr json = some x := by
  have htab : utf8 "\t" = [9] := rfl
  unfold parse
  constructor
  · intro h
    cases hsplit : rsplitOnce '\t' text.toList with
    | none =>
        rw [hsplit] at h
        cases h
    | some cut =>
        obtain ⟨json, tag⟩ := cut
        rw [hsplit] at h
        dsimp only at h
        split_ifs at h with hmac
        rw [not_not] at hmac
        refine ⟨.ofList json, ?_, h⟩
        have htext : text = .ofList json ++ "\t" ++ .ofList tag := by
          rw [← String.toList_inj, String.toList_append, String.toList_append, String.toList_ofList,
            String.toList_ofList, String.toList_ofList, List.append_assoc]
          exact (rsplitOnce_eq_some.mp hsplit).1
        rw [htext, utf8_append, utf8_append, htab, hmac, List.append_assoc]
        rfl
  · rintro ⟨json, htext, hread⟩
    have hjoin : text = json ++ "\t" ++ mac keys json := by
      refine utf8_injective ?_
      rw [htext, utf8_append, utf8_append, htab, List.append_assoc]
      rfl
    have hhex : '\t' ∉ (mac keys json).toList := fun h =>
      absurd (mem_hashText h).1 (by decide)
    have hsplit : rsplitOnce '\t' text.toList = some (json.toList, (mac keys json).toList) := by
      rw [rsplitOnce_eq_some, hjoin, String.toList_append, String.toList_append, List.append_assoc]
      exact ⟨rfl, hhex⟩
    rw [hsplit]
    dsimp only
    rw [String.ofList_toList, String.ofList_toList, if_neg (not_not_intro rfl)]
    exact hread

theorem Recordable.json_of_mac {json : String} (he : Recordable keys serde e)
    (h : mac keys json = mac keys (serde.toString e)) : json = serde.toString e :=
  he.unforged json (hashText_inj h)

theorem Recordable.parse_body (he : Recordable keys serde e) :
    parse keys serde (body keys serde e) = some e :=
  parse_eq_some.mpr ⟨serde.toString e, utf8_body, he.reads⟩

theorem Recordable.parse_glued (he : Recordable keys serde e) (hg : g ≠ [])
    (htext : utf8 text = g ++ utf8 (body keys serde e)) : parse keys serde text = none := by
  cases hparse : parse keys serde text with
  | none => rfl
  | some x =>
      obtain ⟨json, hjson, -⟩ := parse_eq_some.mp hparse
      have hno (j : String) : 9 ∉ utf8 (mac keys j) :=
        not_mem_hashText (.inl (by decide)) (by decide)
      rw [htext, utf8_body, ← List.append_assoc] at hjson
      obtain ⟨hfront, hback⟩ := append_cons_inj (hno _) (hno _) hjson
      have hsame := he.json_of_mac (utf8_injective hback).symm
      rw [hsame, jsonBytes, List.append_left_eq_self] at hfront
      exact absurd hfront hg

theorem read_line (hnew : 10 ∉ g) (hreturn : 13 ∉ g) : read keys serde (g ++ 10 :: rest) =
    (fromUtf8 g).elim [] fun s => (parse keys serde s).toList ++ read keys serde rest := by
  unfold read lines
  rw [rawLines_cons_line hnew, List.map_cons, chomp_newline hreturn]
  cases fromUtf8 g with
  | none => rfl
  | some s =>
      rw [mapWhile, id, List.filterMap_cons]
      cases hparse : parse keys serde s with
      | none => rw [Option.elim_some, hparse]; rfl
      | some x => rw [Option.elim_some, hparse]; rfl

theorem mem_read_last (hnew : 10 ∉ g) (h : x ∈ read keys serde g) :
    ∃ s, utf8 s = g ∧ parse keys serde s = some x := by
  unfold read lines at h
  cases hg : g with
  | nil =>
      rw [hg] at h
      cases h
  | cons byte more =>
      have hne : g ≠ [] := by
        rw [hg]
        exact List.cons_ne_nil _ _
      rw [rawLines_last hnew hne, List.map_singleton, chomp_of_not_mem hnew] at h
      cases htext : fromUtf8 g with
      | none =>
          rw [htext] at h
          cases h
      | some s =>
          rw [htext, mapWhile, id, mapWhile, List.filterMap_cons] at h
          rw [← hg]
          refine ⟨s, fromUtf8_eq_some.mp htext, ?_⟩
          cases hparse : parse keys serde s with
          | none =>
              rw [hparse] at h
              cases h
          | some y =>
              rw [hparse] at h
              rw [List.mem_singleton.mp h]

theorem Recordable.read_own (he : Recordable keys serde e) :
    read keys serde (line keys serde e ++ rest) = e :: read keys serde rest := by
  rw [line_eq, List.append_assoc, List.singleton_append,
    read_line (he.not_mem_body (by decide) (by decide)) (he.not_mem_body (by decide) (by decide)),
    fromUtf8_utf8, Option.elim_some, he.parse_body]
  rfl

theorem Recordable.read_glued (he : Recordable keys serde e) (hg : g ≠ []) (hnew : 10 ∉ g)
    (hreturn : 13 ∉ g) : read keys serde (g ++ (line keys serde e ++ rest)) =
      if (fromUtf8 (g ++ utf8 (body keys serde e))).isSome then read keys serde rest else [] := by
  have hnone (b : UInt8) (hb : b ∉ g) (hbody : b ∉ utf8 (body keys serde e)) :
      b ∉ g ++ utf8 (body keys serde e) := by
    rw [List.mem_append, not_or]
    exact ⟨hb, hbody⟩
  rw [line_eq, List.append_assoc, List.singleton_append, ← List.append_assoc,
    read_line (hnone 10 hnew (he.not_mem_body (by decide) (by decide)))
      (hnone 13 hreturn (he.not_mem_body (by decide) (by decide)))]
  cases htext : fromUtf8 (g ++ utf8 (body keys serde e)) with
  | none => rfl
  | some s =>
      rw [Option.elim_some, he.parse_glued hg (fromUtf8_eq_some.mp htext)]
      rfl

end Lines

section Scraps

variable {keys : Keys} {serde : JournalSerde} {R : List Entry} {x : Entry} {p : List UInt8}
  {pieces : List (List UInt8)}

def Scrap (keys : Keys) (serde : JournalSerde) (R : List Entry) (p : List UInt8) : Prop :=
  p = [] ∨ ∃ e ∈ R, p <+: utf8 (body keys serde e)

theorem Scrap.not_mem {byte : UInt8} (hR : ∀ e ∈ R, Recordable keys serde e)
    (h : Scrap keys serde R p) (hbyte : byte.toNat < 32) (htab : byte ≠ 9) : byte ∉ p := by
  rcases h with rfl | ⟨e, he, hpart⟩
  · exact List.not_mem_nil
  · intro hmem
    exact (hR e he).not_mem_body hbyte htab (hpart.subset hmem)

theorem not_mem_scraps {byte : UInt8} (hR : ∀ e ∈ R, Recordable keys serde e)
    (h : ∀ p ∈ pieces, Scrap keys serde R p) (hbyte : byte.toNat < 32) (htab : byte ≠ 9) :
    byte ∉ pieces.flatten := by
  intro hmem
  obtain ⟨p, hp, hin⟩ := List.mem_flatten.mp hmem
  exact (h p hp).not_mem hR hbyte htab hin

theorem Recordable.parse_scrap {e : Entry} {g : List UInt8} {text : String}
    (he : Recordable keys serde e) (hne : p ≠ []) (hpart : p <+: utf8 (body keys serde e))
    (htext : utf8 text = g ++ p) (hparse : parse keys serde text = some x) :
    x = e ∧ p = utf8 (body keys serde e) := by
  have hno (j : String) : 9 ∉ utf8 (mac keys j) :=
    not_mem_hashText (.inl (by decide)) (by decide)
  obtain ⟨json, hjson, hread⟩ := parse_eq_some.mp hparse
  obtain ⟨q, hq⟩ := hpart
  rw [htext] at hjson
  rw [utf8_body] at hq ⊢
  by_cases htab : 9 ∈ p
  · rcases List.append_eq_append_iff.mp hq with ⟨mid, hmid, -⟩ | ⟨mid, hmid, hrest⟩
    · have hjson9 : 9 ∈ jsonBytes serde e := by
        rw [hmid]
        exact List.mem_append_left _ htab
      exact absurd hjson9 (he.not_mem_json (by decide))
    · cases mid with
      | nil =>
          rw [List.append_nil] at hmid
          rw [hmid] at htab
          exact absurd htab (he.not_mem_json (by decide))
      | cons b digits =>
          rw [List.cons_append, List.cons.injEq] at hrest
          have hdigits : 9 ∉ digits := fun h => hno _ (by
            rw [hrest.2]
            exact List.mem_append_left _ h)
          rw [hmid, ← hrest.1, ← List.append_assoc] at hjson
          obtain ⟨hfront, hback⟩ := append_cons_inj hdigits (hno _) hjson
          -- every hash has the same number of digits, so none is missing
          have hwhole : digits = utf8 (mac keys (serde.toString e)) := by
            refine (List.IsPrefix.eq_of_length ⟨q, hrest.2.symm⟩ ?_)
            rw [hback]
            exact length_utf8_hashText.trans length_utf8_hashText.symm
          have hsame := he.json_of_mac (utf8_injective (hback.symm.trans hwhole))
          rw [hsame, he.reads, Option.some_inj] at hread
          exact ⟨hread.symm, by rw [hmid, ← hrest.1, hwhole]⟩
  · -- without the mark the part stands among the digits, but it opens with a brace
    have hbrace : 123 ∈ p := by
      obtain ⟨more, hmore⟩ := he.json_cons
      cases p with
      | nil => exact absurd rfl hne
      | cons b p =>
          rw [hmore, List.cons_append, List.cons_append, List.cons.injEq] at hq
          rw [hq.1]
          exact List.mem_cons_self
    have hdigits : 123 ∉ utf8 (mac keys json) :=
      not_mem_hashText (.inr (by decide)) (by decide)
    rcases List.append_eq_append_iff.mp hjson with ⟨mid, -, hmid⟩ | ⟨mid, -, hmid⟩
    · rw [hmid] at htab
      exact absurd (List.mem_append_right _ List.mem_cons_self) htab
    · cases mid with
      | nil =>
          rw [List.nil_append] at hmid
          rw [← hmid] at htab
          exact absurd List.mem_cons_self htab
      | cons b mid =>
          rw [List.cons_append, List.cons.injEq] at hmid
          rw [hmid.2] at hdigits
          exact absurd (List.mem_append_right _ hbrace) hdigits

theorem read_scraps (hR : ∀ e ∈ R, Recordable keys serde e)
    (h : ∀ p ∈ pieces, Scrap keys serde R p) (hx : x ∈ read keys serde pieces.flatten) :
    x ∈ R ∧ utf8 (body keys serde x) ∈ pieces := by
  obtain ⟨text, htext, hparse⟩ := mem_read_last (not_mem_scraps hR h (by decide) (by decide)) hx
  clear hx
  induction pieces using List.reverseRecOn with
  | nil =>
      obtain ⟨json, hjson, -⟩ := parse_eq_some.mp hparse
      rw [htext, List.flatten_nil] at hjson
      exact absurd (congrArg List.length hjson) (by
        rw [List.length_append, List.length_cons, List.length_nil]
        omega)
  | append_singleton pieces p ih =>
      rw [List.flatten_concat] at htext
      rcases h p (List.mem_append_right _ List.mem_cons_self) with rfl | ⟨e, he, hpart⟩
      · rw [List.append_nil] at htext
        obtain ⟨hmem, hpiece⟩ := ih (fun p hp => h p (List.mem_append_left _ hp)) htext
        exact ⟨hmem, List.mem_append_left _ hpiece⟩
      · by_cases hne : p = []
        · rw [hne, List.append_nil] at htext
          obtain ⟨hmem, hpiece⟩ := ih (fun p hp => h p (List.mem_append_left _ hp)) htext
          exact ⟨hmem, List.mem_append_left _ hpiece⟩
        · obtain ⟨rfl, hwhole⟩ := (hR e he).parse_scrap hne hpart htext hparse
          exact ⟨he, List.mem_append_right _ (by rw [hwhole]; exact List.mem_cons_self)⟩

end Scraps

section Runs

variable {keys : Keys} {serde : JournalSerde} {R : List Entry} {pieces : List (List UInt8)}
  {run : Run} {runs : List Run} {rest : List UInt8}

theorem cut_eq (cut : ℕ) (entries : List Entry) :
    (entries.flatMap (line keys serde)).take cut =
      (completeIn keys serde cut entries).flatMap (line keys serde) ++
        tornIn keys serde cut entries := by
  induction entries generalizing cut with
  | nil => exact List.take_nil
  | cons e entries ih =>
      rw [List.flatMap_cons, List.take_append, completeIn, tornIn]
      split_ifs with hcut
      · rw [ih, List.take_of_length_le hcut, List.flatMap_cons, List.append_assoc]
      · have hzero : cut - (line keys serde e).length = 0 := by omega
        rw [hzero, List.take_zero, List.append_nil]
        rfl

theorem completeIn_starts (cut : ℕ) (entries : List Entry) :
    completeIn keys serde cut entries <+: entries := by
  induction entries generalizing cut with
  | nil => exact List.prefix_rfl
  | cons e entries ih =>
      rw [completeIn]
      split_ifs with hcut
      · exact List.cons_prefix_cons.mpr ⟨rfl, ih _⟩
      · exact List.nil_prefix

theorem scrap_tornIn (cut : ℕ) {entries : List Entry} (h : entries ⊆ R) :
    Scrap keys serde R (tornIn keys serde cut entries) := by
  induction entries generalizing cut with
  | nil => exact .inl rfl
  | cons e entries ih =>
      rw [tornIn]
      split_ifs with hcut
      · exact ih _ (List.cons_subset.mp h).2
      · right
        refine ⟨e, h List.mem_cons_self, ?_⟩
        have hle : cut ≤ (utf8 (body keys serde e)).length := by
          rw [line_eq, List.length_append, List.length_singleton] at hcut
          omega
        rw [line_eq, List.take_append_of_le_length hle]
        exact List.take_prefix _ _

theorem read_lines {entries : List Entry} (hR : ∀ e ∈ entries, Recordable keys serde e) :
    read keys serde (entries.flatMap (line keys serde) ++ rest) =
      entries ++ read keys serde rest := by
  induction entries with
  | nil => rfl
  | cons e entries ih =>
      obtain ⟨he, hentries⟩ := List.forall_mem_cons.mp hR
      rw [List.flatMap_cons, List.append_assoc, he.read_own, ih hentries]
      rfl

def outputs (keys : Keys) (serde : JournalSerde) (runs : List Run) : List UInt8 :=
  runs.flatMap (Run.output keys serde)

theorem load_journal : load keys serde (journal keys serde runs) =
    read keys serde (outputs keys serde runs) := by
  have hfold (file : Option (List UInt8)) : load keys serde (runs.foldl (append keys serde) file) =
      read keys serde (file.getD [] ++ outputs keys serde runs) := by
    induction runs generalizing file with
    | nil =>
        rw [outputs, List.flatMap_nil, List.append_nil, List.foldl_nil]
        cases file with
        | none => rfl
        | some bytes => rfl
    | cons run runs ih =>
        rw [List.foldl_cons, ih, append, Option.getD_some, outputs, outputs, List.flatMap_cons,
          List.append_assoc]
  exact hfold none

theorem outputs_cons : outputs keys serde (run :: runs) =
    (run.complete keys serde).flatMap (line keys serde) ++
      (run.torn keys serde ++ outputs keys serde runs) := by
  rw [outputs, List.flatMap_cons, Run.output, cut_eq, List.append_assoc]
  rfl

theorem read_run (runs : List Run) (hR : ∀ e ∈ R, Recordable keys serde e)
    (hpieces : ∀ p ∈ pieces, Scrap keys serde R p) (hrun : run.entries ⊆ R) :
    (run.complete keys serde = [] ∧
      pieces.flatten ++ outputs keys serde (run :: runs) =
        (pieces ++ [run.torn keys serde]).flatten ++ outputs keys serde runs) ∨
    (pieces.flatten = [] ∧
      read keys serde (pieces.flatten ++ outputs keys serde (run :: runs)) =
        run.complete keys serde ++
          read keys serde ([run.torn keys serde].flatten ++ outputs keys serde runs)) ∨
    ∃ e more, pieces.flatten ≠ [] ∧ run.complete keys serde = e :: more ∧
      (read keys serde (pieces.flatten ++ outputs keys serde (run :: runs)) = [] ∨
        read keys serde (pieces.flatten ++ outputs keys serde (run :: runs)) =
          more ++ read keys serde ([run.torn keys serde].flatten ++ outputs keys serde runs)) := by
  have hcomplete : ∀ e ∈ run.complete keys serde, Recordable keys serde e := fun e he =>
    hR e (hrun ((completeIn_starts _ _).subset he))
  rw [outputs_cons, List.flatten_singleton]
  by_cases hempty : pieces.flatten = []
  · right
    left
    rw [hempty, List.nil_append, read_lines hcomplete]
    exact ⟨rfl, rfl⟩
  · cases hlines : run.complete keys serde with
    | nil =>
        left
        rw [List.flatten_concat, List.append_assoc]
        exact ⟨rfl, rfl⟩
    | cons e more =>
        right
        right
        rw [hlines] at hcomplete
        obtain ⟨he, hmore⟩ := List.forall_mem_cons.mp hcomplete
        refine ⟨e, more, hempty, rfl, ?_⟩
        rw [List.flatMap_cons, List.append_assoc, he.read_glued hempty
          (not_mem_scraps hR hpieces (by decide) (by decide))
          (not_mem_scraps hR hpieces (by decide) (by decide)), read_lines hmore]
        split_ifs with htext
        · exact .inr rfl
        · exact .inl rfl

theorem Run.scrap_torn (hrun : run.entries ⊆ R) : Scrap keys serde R (run.torn keys serde) :=
  scrap_tornIn _ hrun

theorem read_recorded (hR : ∀ e ∈ R, Recordable keys serde e)
    (hpieces : ∀ p ∈ pieces, Scrap keys serde R p) (hruns : ∀ run ∈ runs, run.entries ⊆ R) :
    read keys serde (pieces.flatten ++ outputs keys serde runs) ⊆ R := by
  induction runs generalizing pieces with
  | nil =>
      intro x hx
      rw [outputs, List.flatMap_nil, List.append_nil] at hx
      exact (read_scraps hR hpieces hx).1
  | cons run runs ih =>
      obtain ⟨hrun, hlater⟩ := List.forall_mem_cons.mp hruns
      have htorn : ∀ p ∈ [run.torn keys serde], Scrap keys serde R p :=
        List.forall_mem_singleton.mpr (run.scrap_torn hrun)
      have hcomplete : run.complete keys serde ⊆ R := fun e he =>
        hrun ((completeIn_starts _ _).subset he)
      rcases read_run runs hR hpieces hrun with
        ⟨-, hjoin⟩ | ⟨-, hread⟩ | ⟨e, more, -, hlines, hread | hread⟩
      · rw [hjoin]
        exact ih (List.forall_mem_append.mpr ⟨hpieces, htorn⟩) hlater
      · rw [hread]
        exact List.append_subset.mpr ⟨hcomplete, ih htorn hlater⟩
      · rw [hread]
        exact List.nil_subset _
      · rw [hread]
        rw [hlines] at hcomplete
        exact List.append_subset.mpr ⟨(List.cons_subset.mp hcomplete).2, ih htorn hlater⟩

theorem unmerged_cons : Unmerged keys serde (run :: runs) ↔
    (run.torn keys serde = [] ∨ ∀ later ∈ runs, later.complete keys serde = []) ∧
      Unmerged keys serde runs := by
  unfold Unmerged
  rw [List.pairwise_cons]
  by_cases htorn : run.torn keys serde = []
  · simp only [htorn, true_or, implies_true]
  · simp only [htorn, false_or]

theorem read_unmerged (hR : ∀ e ∈ R, Recordable keys serde e)
    (hpieces : ∀ p ∈ pieces, Scrap keys serde R p) (hruns : ∀ run ∈ runs, run.entries ⊆ R)
    (hstart : pieces.flatten = [] ∨ ∀ run ∈ runs, run.complete keys serde = [])
    (hunmerged : Unmerged keys serde runs) :
    runs.flatMap (Run.complete keys serde) <+:
      read keys serde (pieces.flatten ++ outputs keys serde runs) := by
  induction runs generalizing pieces with
  | nil => exact List.nil_prefix
  | cons run runs ih =>
      obtain ⟨hrun, hlater⟩ := List.forall_mem_cons.mp hruns
      obtain ⟨htail, hrest⟩ := unmerged_cons.mp hunmerged
      have htorn : ∀ p ∈ [run.torn keys serde], Scrap keys serde R p :=
        List.forall_mem_singleton.mpr (run.scrap_torn hrun)
      rw [List.flatMap_cons]
      rcases read_run runs hR hpieces hrun with
        ⟨hlines, hjoin⟩ | ⟨-, hread⟩ | ⟨e, more, hne, hlines, -⟩
      · rw [hjoin, hlines, List.nil_append]
        refine ih (List.forall_mem_append.mpr ⟨hpieces, htorn⟩) hlater ?_ hrest
        rcases hstart with hempty | hnone
        · rw [List.flatten_concat, hempty, List.nil_append]
          exact htail
        · exact .inr (List.forall_mem_cons.mp hnone).2
      · rw [hread, List.prefix_append_right_inj]
        refine ih htorn hlater ?_ hrest
        rw [List.flatten_singleton]
        exact htail
      · rcases hstart with hempty | hnone
        · exact absurd hempty hne
        · rw [(List.forall_mem_cons.mp hnone).1] at hlines
          cases hlines

theorem length_read (hR : ∀ e ∈ R, Recordable keys serde e)
    (hpieces : ∀ p ∈ pieces, Scrap keys serde R p) (hruns : ∀ run ∈ runs, run.entries ⊆ R)
    (hparts : ∀ p ∈ pieces, ∀ e ∈ R, p ≠ utf8 (body keys serde e))
    (hcuts : ∀ run ∈ runs, ∀ e ∈ R, run.torn keys serde ≠ utf8 (body keys serde e)) :
    (read keys serde (pieces.flatten ++ outputs keys serde runs)).length ≤
        (runs.flatMap (Run.complete keys serde)).length ∧
      ((runs.flatMap (Run.complete keys serde)).length ≤
          (read keys serde (pieces.flatten ++ outputs keys serde runs)).length →
        Unmerged keys serde runs ∧
          (pieces.flatten = [] ∨ ∀ run ∈ runs, run.complete keys serde = [])) := by
  induction runs generalizing pieces with
  | nil =>
      have hnone : read keys serde pieces.flatten = [] := by
        refine List.eq_nil_iff_forall_not_mem.mpr fun x hx => ?_
        obtain ⟨hmem, hpiece⟩ := read_scraps hR hpieces hx
        exact hparts _ hpiece x hmem rfl
      rw [outputs, List.flatMap_nil, List.append_nil, hnone]
      exact ⟨le_rfl, fun _ => ⟨List.Pairwise.nil, .inr (List.forall_mem_nil _)⟩⟩
  | cons run runs ih =>
      obtain ⟨hrun, hlater⟩ := List.forall_mem_cons.mp hruns
      obtain ⟨hcut, hcuts'⟩ := List.forall_mem_cons.mp hcuts
      have htorn : ∀ p ∈ [run.torn keys serde], Scrap keys serde R p :=
        List.forall_mem_singleton.mpr (run.scrap_torn hrun)
      have hpart : ∀ p ∈ [run.torn keys serde], ∀ e ∈ R, p ≠ utf8 (body keys serde e) :=
        List.forall_mem_singleton.mpr hcut
      rw [List.flatMap_cons, List.length_append, unmerged_cons, List.forall_mem_cons]
      rcases read_run runs hR hpieces hrun with
        ⟨hlines, hjoin⟩ | ⟨hempty, hread⟩ | ⟨e, more, -, hlines, hread | hread⟩
      · obtain ⟨hle, hge⟩ := ih (List.forall_mem_append.mpr ⟨hpieces, htorn⟩) hlater
          (List.forall_mem_append.mpr ⟨hparts, hpart⟩) hcuts'
        rw [hjoin, hlines, List.length_nil, Nat.zero_add]
        refine ⟨hle, fun h => ?_⟩
        obtain ⟨hunmerged, hstart⟩ := hge h
        rw [List.flatten_concat, List.append_eq_nil_iff] at hstart
        rcases hstart with ⟨hnone, hwhole⟩ | hquiet
        · exact ⟨⟨.inl hwhole, hunmerged⟩, .inl hnone⟩
        · exact ⟨⟨.inr hquiet, hunmerged⟩, .inr ⟨rfl, hquiet⟩⟩
      · obtain ⟨hle, hge⟩ := ih htorn hlater hpart hcuts'
        rw [hread, List.length_append]
        refine ⟨by omega, fun h => ?_⟩
        obtain ⟨hunmerged, hstart⟩ := hge (by omega)
        rw [List.flatten_singleton] at hstart
        exact ⟨⟨hstart, hunmerged⟩, .inl hempty⟩
      · rw [hread, hlines, List.length_cons, List.length_nil]
        exact ⟨by omega, fun h => by omega⟩
      · obtain ⟨hle, -⟩ := ih htorn hlater hpart hcuts'
        rw [hread, hlines, List.length_cons, List.length_append]
        exact ⟨by omega, fun h => by omega⟩

end Runs

section Journals

variable {keys : Keys} {serde : JournalSerde} {runs : List Run}

theorem keeps_of_unmerged (hserde : ∀ run ∈ runs, ∀ e ∈ run.entries, Recordable keys serde e)
    (h : Unmerged keys serde runs) : Keeps keys serde runs := by
  have hR : ∀ e ∈ runs.flatMap Run.entries, Recordable keys serde e := by
    intro e he
    obtain ⟨run, hrun, hmem⟩ := List.mem_flatMap.mp he
    exact hserde run hrun e hmem
  have hruns : ∀ run ∈ runs, run.entries ⊆ runs.flatMap Run.entries := fun run hrun e he =>
    List.mem_flatMap.mpr ⟨run, hrun, he⟩
  have hnothing : ∀ p ∈ ([] : List (List UInt8)), Scrap keys serde (runs.flatMap Run.entries) p :=
    List.forall_mem_nil _
  constructor
  · rw [load_journal]
    exact (read_unmerged hR hnothing hruns (.inl rfl) h).sublist
  · intro e he
    rw [load_journal] at he
    exact List.mem_flatMap.mp (read_recorded hR hnothing hruns he)

theorem unmerged_of_keeps (hserde : ∀ run ∈ runs, ∀ e ∈ run.entries, Recordable keys serde e)
    (hcuts : ∀ run ∈ runs, ∀ e, run.torn keys serde ≠ utf8 (body keys serde e))
    (h : Keeps keys serde runs) : Unmerged keys serde runs := by
  have hR : ∀ e ∈ runs.flatMap Run.entries, Recordable keys serde e := by
    intro e he
    obtain ⟨run, hrun, hmem⟩ := List.mem_flatMap.mp he
    exact hserde run hrun e hmem
  have hruns : ∀ run ∈ runs, run.entries ⊆ runs.flatMap Run.entries := fun run hrun e he =>
    List.mem_flatMap.mpr ⟨run, hrun, he⟩
  have hnothing : ∀ p ∈ ([] : List (List UInt8)), Scrap keys serde (runs.flatMap Run.entries) p :=
    List.forall_mem_nil _
  have hlength := h.complete.length_le
  rw [load_journal] at hlength
  exact ((length_read hR hnothing hruns (List.forall_mem_nil _)
    fun run hrun e _ => hcuts run hrun e).2 hlength).1

/-- A resumed backup finds what unfinished runs completed as long as none of them wrote after a torn
line; otherwise a line is lost with it, unless a cut just before a newline brings it back. -/
theorem journal_keeps_lines (hserde : ∀ run ∈ runs, ∀ e ∈ run.entries, Recordable keys serde e) :
    (Unmerged keys serde runs → Keeps keys serde runs) ∧
      ((∀ run ∈ runs, ∀ e, run.torn keys serde ≠ utf8 (body keys serde e)) →
        Keeps keys serde runs → Unmerged keys serde runs) :=
  ⟨keeps_of_unmerged hserde, unmerged_of_keeps hserde⟩

def entryNamed (name : String) : Entry where
  path := "/" ++ name
  node := { name, nodeType := .file, mode := 420, uid := 0, gid := 0, size := 0, mtime := 0
            ctime := none, linkTarget := none, content := [], subtree := none, device := 0
            inode := 0, links := 0, contentHash := none, offloaded := false }

def textNamed (name : String) : String :=
  "\x7b\"path\":\"/" ++ name ++ "\",\"node\":\x7b\"name\":\"" ++ name ++
    "\",\"type\":\"file\",\"mode\":420,\"uid\":0,\"gid\":0," ++
    "\"mtime\":\"1970-01-01T00:00:00Z\"\x7d\x7d"

def namedSerde : JournalSerde where
  toString e := textNamed e.node.name
  fromStr text := (["a", "b"].find? fun name => textNamed name = text).map entryNamed

def namedKeys : Keys where
  blobId bytes :=
    if bytes = macContext ++ utf8 (textNamed "a") then 1
    else if bytes = macContext ++ utf8 (textNamed "b") then 2
    else 0
  cipher _ _ := 0

theorem namedKeys_blobId (json : String) : namedKeys.blobId (macContext ++ utf8 json) =
    if json = textNamed "a" then 1 else if json = textNamed "b" then 2 else 0 := by
  simp only [namedKeys, List.append_cancel_left_eq, utf8_injective.eq_iff]

theorem printable_of_all {text : String} (h : text.toList.all (' ' ≤ ·) = true) :
    ∀ c ∈ text.toList, ' ' ≤ c :=
  fun c hc => of_decide_eq_true (List.all_eq_true.mp h c hc)

theorem printable_named {name : String} (h : ∀ c ∈ name.toList, ' ' ≤ c) :
    ∀ c ∈ (textNamed name).toList, ' ' ≤ c := by
  unfold textNamed
  simp only [String.toList_append, List.forall_mem_append]
  refine ⟨⟨⟨⟨⟨?_, h⟩, ?_⟩, h⟩, ?_⟩, ?_⟩
  all_goals exact printable_of_all (by decide +kernel)

theorem recordable_named {name : String} (h : name = "a" ∨ name = "b") :
    Recordable namedKeys namedSerde (entryNamed name) := by
  have hne : textNamed "b" ≠ textNamed "a" := by decide +kernel
  constructor
  · rcases h with rfl | rfl
    · exact printable_named (printable_of_all (by decide))
    · exact printable_named (printable_of_all (by decide))
  · rcases h with rfl | rfl
    · decide +kernel
    · decide +kernel
  · rcases h with rfl | rfl
    · decide +kernel
    · decide +kernel
  · intro json hhash
    rcases h with rfl | rfl
    · have hown : namedKeys.blobId (macContext ++ utf8 (textNamed "a")) = 1 := by
        rw [namedKeys_blobId, if_pos rfl]
      by_contra hother
      change json ≠ textNamed "a" at hother
      rw [namedKeys_blobId, if_neg hother] at hhash
      change _ = namedKeys.blobId (macContext ++ utf8 (textNamed "a")) at hhash
      rw [hown] at hhash
      split_ifs at hhash
      · exact absurd hhash (by decide)
      · exact absurd hhash (by decide)
    · have hown : namedKeys.blobId (macContext ++ utf8 (textNamed "b")) = 2 := by
        rw [namedKeys_blobId, if_neg hne, if_pos rfl]
      by_contra hother
      change json ≠ textNamed "b" at hother
      rw [namedKeys_blobId, if_neg hother] at hhash
      change _ = namedKeys.blobId (macContext ++ utf8 (textNamed "b")) at hhash
      rw [hown] at hhash
      split_ifs at hhash
      · exact absurd hhash (by decide)
      · exact absurd hhash (by decide)

/-- The second run is stopped within its line. -/
theorem journal_keeps_lines_stopped :
    Keeps namedKeys namedSerde [⟨[entryNamed "a"], 300⟩, ⟨[entryNamed "b"], 5⟩] := by
  refine (journal_keeps_lines ?_).1 ?_
  · simp only [List.forall_mem_cons, List.not_mem_nil, false_implies, implies_true, and_true]
    exact ⟨recordable_named (.inl rfl), recordable_named (.inr rfl)⟩
  · have hwhole : Run.torn namedKeys namedSerde ⟨[entryNamed "a"], 300⟩ = [] := by decide +kernel
    refine List.pairwise_pair.mpr (.inl hwhole)

/-- The line of the second run is appended to the brace that the first one got to write. -/
theorem journal_loses_line :
    ¬ Keeps namedKeys namedSerde [⟨[entryNamed "a"], 1⟩, ⟨[entryNamed "b"], 300⟩] := by
  intro h
  have htorn : Run.torn namedKeys namedSerde ⟨[entryNamed "a"], 1⟩ = [123] := by decide +kernel
  have hwhole : Run.torn namedKeys namedSerde ⟨[entryNamed "b"], 300⟩ = [] := by decide +kernel
  have hcomplete : Run.complete namedKeys namedSerde ⟨[entryNamed "b"], 300⟩ =
      [entryNamed "b"] := by decide +kernel
  have hlong (e : Entry) : 2 ≤ (utf8 (body namedKeys namedSerde e)).length := by
    rw [utf8_body, List.length_append, List.length_cons, mac, length_utf8_hashText]
    omega
  refine absurd (unmerged_of_keeps ?_ ?_ h) ?_
  · simp only [List.forall_mem_cons, List.not_mem_nil, false_implies, implies_true, and_true]
    exact ⟨recordable_named (.inl rfl), recordable_named (.inr rfl)⟩
  · simp only [List.forall_mem_cons, List.not_mem_nil, false_implies, implies_true, and_true]
    rw [htorn, hwhole]
    refine ⟨fun e heq => ?_, fun e heq => ?_⟩
    · have hlength := hlong e
      rw [← heq, List.length_singleton] at hlength
      omega
    · have hlength := hlong e
      rw [← heq, List.length_nil] at hlength
      omega
  · intro hunmerged
    rcases List.pairwise_pair.mp hunmerged with hnone | hnone
    · rw [htorn] at hnone
      cases hnone
    · rw [hcomplete] at hnone
      cases hnone

end Journals

end FileMirror.Journal
