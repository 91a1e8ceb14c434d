import FileMirror.Compaction
import FileMirror.Transitions

set_option autoImplicit false

/-!
# Rollback protection

`from_store` and `to_store` one request at a time, in a bucket where others compact and anybody with
access to it may delete snapshot objects and put what he has seen under other names. The generation
is read from the name, which the ciphertext is bound to.
-/

namespace FileMirror

open Transitions

namespace Rollback

/-- The first match of `generation(\\d+)`, where `decimal` is the class `\\d`. -/
def captureDigits (decimal : Char → Bool) : List Char → Option (List Char)
  | [] => none
  | c :: text =>
      let digits := ((c :: text).drop "generation".toList.length).takeWhile decimal
      if "generation".toList <+: c :: text ∧ digits ≠ [] then some digits
      else captureDigits decimal text

/-- `str::parse::<u64>` of a match, which begins with no sign. -/
def parseU64 (digits : List Char) : Option ℕ :=
  if digits.all Char.isDigit ∧ Nat.ofDigitChars 10 digits 0 < 2 ^ 64
  then some (Nat.ofDigitChars 10 digits 0) else none

def extractGeneration (decimal : Char → Bool) (key : String) : Option ℕ :=
  (captureDigits decimal key.toList).bind parseU64

/-- `format!("{prefix}snapshot/generation{:020}.snap", generation)`. -/
def storeKey (base : String) (generation : ℕ) : String :=
  String.ofList (base.toList ++ (snapshotKey generation).toList)

/-- A snapshot object: what is sealed with the manifest key opens under the key it was sealed for. -/
inductive Body where
  | snapshot (sealedFor : String) (manifest : Manifest)
  | other

def Body.open? (key : String) : Body → Option Manifest
  | .snapshot sealedFor manifest => if sealedFor = key then some manifest else none
  | .other => none

/-- What a device does about snapshots between two requests; `old` is the object that a compaction
started from. -/
inductive Phase where
  | idle
  | listed (compacts : Bool) (newest : Option String)
  | held (manifest : Manifest) (old : Option String)
  | putting (manifest : Manifest) (old : Option String) (generation : ℕ)
  | stored (manifest : Manifest) (old : Option String) (generation : ℕ)
  | recorded (manifest : Manifest) (old : Option String)
  | verifying (manifest : Manifest) (old newest : Option String)
  | verified (old : Option String)

inductive Touch where
  | read (key : String) (manifest : Manifest) (generation : ℕ)
  | wrote (generation : ℕ)

def Touch.generation : Touch → ℕ
  | .read _ _ generation => generation
  | .wrote generation => generation

/-- The bucket's snapshots, all that was ever sealed with the manifest key, and one device: its
recorded generation and the snapshots it has read or written, in order. -/
structure World where
  objects : StringMap Body
  sealings : List (String × Manifest)
  recorded : ℕ
  history : List Touch
  phase : Phase

/-- The device starts a pass or a compaction, goes on with what it has read of the log, prunes or
not, or stops. Others seal a snapshot and put it, delete an object, or put one. -/
inductive Step where
  | start (compacts : Bool)
  | next (deltas : List DeltaEntry) (prunes : Bool)
  | fail
  | othersSeal (generation : ℕ) (manifest : Manifest)
  | delete (key : String)
  | place (key : String) (body : Body)

section Model

variable (decimal : Char → Bool) (base : String)

/-- `store.list` below the snapshot prefix, and the last key of it. -/
def World.newest (w : World) : Option String :=
  (w.objects.keys.filter fun key => (base.toList ++ "snapshot".toList).isPrefixOf key.toList).getLast?

/-- `from_store` from its get on. -/
def World.read (w : World) (key : String) : Option (Manifest × World) :=
  (w.objects[key]?).bind fun body => (extractGeneration decimal key).bind fun generation =>
    if generation < w.recorded then none
    else (body.open? key).map fun manifest =>
      (manifest, { w with
        recorded := if w.recorded < generation then recordGeneration generation else w.recorded
        history := w.history ++ [.read key manifest generation] })

/-- The number that `to_store` gives: one more than the last listed, or than the recorded. -/
def World.following (w : World) : Option ℕ :=
  match w.newest base with
  | none => some (w.recorded + 1)
  | some key => (extractGeneration decimal key).map (· + 1)

/-- Any request that fails ends what the device does. -/
def World.next (w : World) (deltas : List DeltaEntry) (prunes : Bool) : Option World :=
  match w.phase with
  | .idle => none
  | .listed compacts none =>
      some { w with phase := if compacts then .held (mergeDeltas ∅ deltas).manifest none else .idle }
  | .listed compacts (some key) =>
      match w.read decimal key with
      | none => some { w with phase := .idle }
      | some (manifest, w) =>
          some { w with
            phase := if compacts then .held (mergeDeltas manifest deltas).manifest (some key)
              else .idle }
  | .held manifest old =>
      match w.following decimal base with
      | none => some { w with phase := .idle }
      | some generation =>
          -- a generation past `u64::MAX` ends the compaction
          if generation < 2 ^ 64 then some { w with phase := .putting manifest old generation }
          else some { w with phase := .idle }
  | .putting manifest old generation =>
      let key := storeKey base generation
      some { w with
        objects := w.objects.insert key (.snapshot key manifest)
        sealings := w.sealings ++ [(key, manifest)]
        history := w.history ++ [.wrote generation]
        phase := .stored manifest old generation }
  | .stored manifest old generation =>
      some { w with recorded := recordGeneration generation, phase := .recorded manifest old }
  | .recorded manifest old => some { w with phase := .verifying manifest old (w.newest base) }
  | .verifying manifest old none =>
      some { w with phase := if manifest = ∅ then .verified old else .idle }
  | .verifying manifest old (some key) =>
      match w.read decimal key with
      | none => some { w with phase := .idle }
      | some (latest, w) => some { w with phase := if manifest = latest then .verified old else .idle }
  | .verified old =>
      match old with
      | none => some { w with phase := .idle }
      | some key =>
          if prunes then some { w with objects := w.objects.erase key, phase := .idle }
          else some { w with phase := .idle }

def World.step (w : World) : Step → Option World
  | .start compacts =>
      match w.phase with
      | .idle => some { w with phase := .listed compacts (w.newest base) }
      | _ => none
  | .next deltas prunes => w.next decimal base deltas prunes
  | .fail => some { w with phase := .idle }
  | .othersSeal generation manifest =>
      let key := storeKey base generation
      some { w with
        objects := w.objects.insert key (.snapshot key manifest)
        sealings := w.sealings ++ [(key, manifest)] }
  | .delete key => some { w with objects := w.objects.erase key }
  | .place key body => some { w with objects := w.objects.insert key body }

def Ideal (w : World) : Step → Prop
  | .place _ (.snapshot sealedFor manifest) => (sealedFor, manifest) ∈ w.sealings
  | _ => True

/-- A compaction numbers its snapshot after a listing that is not behind what is recorded, and once
the snapshot is put its generation is recorded. Generations stay below `i64::MAX`. -/
def Confirms (w : World) (a : Step) : Prop :=
  Ideal w a ∧ match a with
    | .next _ _ => ∀ manifest old, w.phase = .held manifest old →
        w.recorded < i64Max ∧
        ∀ key generation, w.newest base = some key →
          extractGeneration decimal key = some generation →
          w.recorded ≤ generation + 1 ∧ generation < i64Max
    | .fail => ∀ manifest old generation, w.phase ≠ .stored manifest old generation
    | .othersSeal generation _ => generation ≤ i64Max
    | .start _ | .delete _ | .place _ _ => True

end Model

/-- Among the ASCII characters the class `\\d` are the digits. -/
def DecimalClass (decimal : Char → Bool) : Prop :=
  ∀ c : Char, c.toNat < 128 → decimal c = c.isDigit

section Keys

variable {decimal : Char → Bool} {base : String} {front rest : List Char} {generation : ℕ}

theorem takeWhile_append_eq_nil (h : front.takeWhile decimal = [])
    (hrest : rest.takeWhile decimal = []) : (front ++ rest).takeWhile decimal = [] := by
  cases front with
  | nil => exact hrest
  | cons c front =>
      rw [List.takeWhile_cons] at h
      split_ifs at h with hc
      rw [List.cons_append, List.takeWhile_cons, if_neg hc]

theorem captureDigits_append (hdecimal : DecimalClass decimal)
    (hfront : captureDigits decimal front = none) :
    captureDigits decimal (front ++ 's' :: rest) = captureDigits decimal ('s' :: rest) := by
  have hmark : decimal 's' = false := hdecimal 's' (by decide)
  have hstop : ('s' :: rest).takeWhile decimal = [] := by
    rw [List.takeWhile_cons, if_neg (by rw [hmark]; exact Bool.false_ne_true)]
  induction front with
  | nil => rfl
  | cons c front ih =>
      have hnone : ¬ ("generation".toList <+: c :: front ∧
          ((c :: front).drop "generation".toList.length).takeWhile decimal ≠ []) := by
        intro hmatch
        rw [captureDigits, if_pos hmatch] at hfront
        cases hfront
      have hmore : ¬ ("generation".toList <+: c :: front ++ 's' :: rest ∧
          ((c :: front ++ 's' :: rest).drop "generation".toList.length).takeWhile decimal ≠ []) := by
        rintro ⟨hword, hdigits⟩
        by_cases hlen : "generation".toList.length ≤ (c :: front).length
        · have hinner := List.prefix_of_prefix_length_le hword (List.prefix_append _ _) hlen
          apply hdigits
          rw [List.drop_append_of_le_length hlen]
          apply takeWhile_append_eq_nil _ hstop
          by_contra hrun
          exact hnone ⟨hinner, hrun⟩
        · have hbetween := List.prefix_iff_getElem?.mp hword (c :: front).length (by omega)
          rw [List.getElem?_append_right (Nat.le_refl _), Nat.sub_self] at hbetween
          have hmem : 's' ∈ "generation".toList := by
            rw [List.mem_iff_getElem]
            exact ⟨(c :: front).length, by omega, (Option.some.inj hbetween).symm⟩
          exact absurd hmem (by decide)
      rw [captureDigits, if_neg hnone] at hfront
      rw [List.cons_append, captureDigits]
      rw [List.cons_append] at hmore
      rw [if_neg hmore, ih hfront]

theorem captureDigits_cons_of_ne {c : Char} (h : c ≠ 'g') :
    captureDigits decimal (c :: rest) = captureDigits decimal rest := by
  have hword : ¬ "generation".toList <+: c :: rest := by
    intro hword
    exact h (List.cons_prefix_cons.mp hword).1.symm
  rw [captureDigits, if_neg fun hmatch => hword hmatch.1]

theorem takeWhile_padded (hdecimal : DecimalClass decimal) (width n : ℕ) :
    (padded width n ++ '.' :: rest).takeWhile decimal = padded width n := by
  have hdigits : ∀ c ∈ padded width n, decimal c = true := by
    intro c hc
    have hdigit := isDigit_of_mem_padded hc
    have hcode := Char.isDigit_iff_toNat.mp hdigit
    have h9 : '9'.toNat = 57 := rfl
    rw [hdecimal c (by omega), hdigit]
  have hmark : decimal '.' = false := hdecimal '.' (by decide)
  rw [List.takeWhile_append_of_pos hdigits, List.takeWhile_cons,
    if_neg (by rw [hmark]; exact Bool.false_ne_true), List.append_nil]

theorem padded_ne_nil (width n : ℕ) : padded width n ≠ [] := by
  unfold padded
  rw [Ne, List.append_eq_nil_iff]
  exact fun h => Nat.toDigits_ne_nil h.2

theorem toList_snapshotKey (generation : ℕ) : (snapshotKey generation).toList = "snapshot/".toList ++
    ("generation".toList ++ (padded 20 generation ++ '.' :: "snap".toList)) := by
  have hhead : "snapshot/generation".toList = "snapshot/".toList ++ "generation".toList := by decide
  have htail : ".snap".toList = '.' :: "snap".toList := by decide
  have htext : (snapshotKey generation).toList =
      "snapshot/generation".toList ++ (padded 20 generation ++ ".snap".toList) :=
    String.toList_ofList
  rw [htext, hhead, htail, List.append_assoc]

theorem captureDigits_snapshotKey (hdecimal : DecimalClass decimal) (generation : ℕ) :
    captureDigits decimal (snapshotKey generation).toList = some (padded 20 generation) := by
  have hskip : ∀ text, captureDigits decimal ("snapshot/".toList ++ text) =
      captureDigits decimal text := by
    intro text
    have hletters : "snapshot/".toList = ['s', 'n', 'a', 'p', 's', 'h', 'o', 't', '/'] := by decide
    simp only [hletters, List.cons_append, List.nil_append]
    rw [captureDigits_cons_of_ne (by decide), captureDigits_cons_of_ne (by decide),
      captureDigits_cons_of_ne (by decide), captureDigits_cons_of_ne (by decide),
      captureDigits_cons_of_ne (by decide), captureDigits_cons_of_ne (by decide),
      captureDigits_cons_of_ne (by decide), captureDigits_cons_of_ne (by decide),
      captureDigits_cons_of_ne (by decide)]
  rw [toList_snapshotKey, hskip]
  have hletters : "generation".toList = 'g' :: "eneration".toList := by decide
  have hword : "generation".toList <+: "generation".toList ++
      (padded 20 generation ++ '.' :: "snap".toList) := List.prefix_append _ _
  have hdrop : ("generation".toList ++ (padded 20 generation ++ '.' :: "snap".toList)).drop
      "generation".toList.length = padded 20 generation ++ '.' :: "snap".toList := List.drop_left
  generalize hpadded : padded 20 generation ++ '.' :: "snap".toList = numbered at hword hdrop ⊢
  rw [hletters, List.cons_append] at hword hdrop ⊢
  rw [captureDigits, hletters, hdrop, ← hpadded, takeWhile_padded hdecimal, hpadded,
    if_pos ⟨hword, padded_ne_nil _ _⟩]

theorem extractGeneration_storeKey (hdecimal : DecimalClass decimal)
    (hbase : captureDigits decimal base.toList = none) (hgeneration : generation ≤ i64Max) :
    extractGeneration decimal (storeKey base generation) = some generation := by
  have htext : ∃ rest, (snapshotKey generation).toList = 's' :: rest := by
    have hletters : "snapshot/".toList = 's' :: "napshot/".toList := by decide
    rw [toList_snapshotKey, hletters]
    exact ⟨_, List.cons_append⟩
  obtain ⟨rest, hrest⟩ := htext
  have hcapture : captureDigits decimal (storeKey base generation).toList =
      some (padded 20 generation) := by
    rw [storeKey, String.toList_ofList, hrest, captureDigits_append hdecimal hbase, ← hrest,
      captureDigits_snapshotKey hdecimal]
  have hdigits : (padded 20 generation).all Char.isDigit = true :=
    List.all_eq_true.mpr fun c hc => isDigit_of_mem_padded hc
  have hsmall : generation < 2 ^ 64 := by
    have hmax : i64Max < 2 ^ 64 := by decide
    omega
  unfold extractGeneration
  rw [hcapture, Option.bind_some]
  unfold parseU64
  rw [ofDigitChars_padded, if_pos ⟨hdigits, hsmall⟩]

end Keys

def Phase.pending : Phase → Option ℕ
  | .putting _ _ generation | .stored _ _ generation => some generation
  | _ => none

def World.reached (w : World) : ℕ :=
  match w.phase with
  | .stored _ _ generation => generation
  | _ => w.recorded

structure World.Kept (base : String) (w : World) : Prop where
  bounded : w.recorded ≤ i64Max
  objects : ∀ (key sealedFor : String) (manifest : Manifest), w.objects[key]? = some (Body.snapshot sealedFor manifest) →
    (sealedFor, manifest) ∈ w.sealings
  sealings : ∀ entry ∈ w.sealings, ∃ generation ≤ i64Max, entry.1 = storeKey base generation
  reads : ∀ key manifest generation, Touch.read key manifest generation ∈ w.history →
    (key, manifest) ∈ w.sealings ∧ key = storeKey base generation
  ordered : (w.history.map Touch.generation).Pairwise (· ≤ ·)
  confirmed : ∀ touch ∈ w.history, touch.generation ≤ w.reached
  numbered : ∀ generation, w.phase.pending = some generation →
    w.recorded ≤ generation ∧ generation ≤ i64Max

section Steps

variable {decimal : Char → Bool} {base : String} {w t : World} {phase : Phase} {key : String}
  {manifest : Manifest} {generation : ℕ}

namespace World

theorem reached_of_pending (h : w.phase.pending = none) : w.reached = w.recorded := by
  unfold reached
  cases hphase : w.phase with
  | stored manifest old generation =>
      rw [hphase] at h
      cases h
  | _ => rfl

theorem Kept.quiet (h : w.Kept base) (hfrom : w.reached = w.recorded) (hphase : phase.pending = none) :
    World.Kept base { w with phase } where
  bounded := h.bounded
  objects := h.objects
  sealings := h.sealings
  reads := h.reads
  ordered := h.ordered
  confirmed touch htouch := by
    rw [reached_of_pending hphase, ← hfrom]
    exact h.confirmed touch htouch
  numbered generation hpending := by
    rw [hphase] at hpending
    cases hpending

theorem read_eq_some (h : w.read decimal key = some (manifest, t)) :
    ∃ generation, w.objects[key]? = some (Body.snapshot key manifest) ∧
      extractGeneration decimal key = some generation ∧ w.recorded ≤ generation ∧
      t = { w with
        recorded := if w.recorded < generation then recordGeneration generation else w.recorded
        history := w.history ++ [.read key manifest generation] } := by
  obtain ⟨body, hbody, hrest⟩ := Option.bind_eq_some_iff.mp h
  obtain ⟨generation, hextract, hrest⟩ := Option.bind_eq_some_iff.mp hrest
  by_cases hbehind : generation < w.recorded
  · rw [if_pos hbehind] at hrest
    cases hrest
  rw [if_neg hbehind] at hrest
  obtain ⟨opened, hopen, heq⟩ := Option.map_eq_some_iff.mp hrest
  obtain ⟨rfl, rfl⟩ := Prod.mk.inj heq
  refine ⟨generation, ?_, hextract, Nat.le_of_not_lt hbehind, rfl⟩
  cases body with
  | snapshot sealedFor sealedManifest =>
      by_cases hsealed : sealedFor = key
      · rw [Body.open?, if_pos hsealed] at hopen
        cases hopen
        rw [hbody, hsealed]
      · rw [Body.open?, if_neg hsealed] at hopen
        cases hopen
  | other => cases hopen

theorem Kept.read (hdecimal : DecimalClass decimal)
    (hbase : captureDigits decimal base.toList = none) (h : w.Kept base)
    (hfrom : w.reached = w.recorded) (hphase : phase.pending = none)
    (hread : w.read decimal key = some (manifest, t)) :
    World.Kept base { t with phase } ∧ w.recorded ≤ t.recorded := by
  obtain ⟨generation, hobject, hextract, hahead, rfl⟩ := read_eq_some hread
  have hsealed := h.objects key key manifest hobject
  obtain ⟨sealedAt, hsmall, hname⟩ := h.sealings _ hsealed
  dsimp only at hname
  have hsame : generation = sealedAt := by
    rw [hname, extractGeneration_storeKey hdecimal hbase hsmall] at hextract
    exact (Option.some.inj hextract).symm
  subst hsame
  have hrecorded : (if w.recorded < generation then recordGeneration generation else w.recorded) =
      generation := by
    unfold recordGeneration
    split_ifs with hlt
    · exact Nat.min_eq_left hsmall
    · omega
  rw [hrecorded]
  refine ⟨⟨hsmall, h.objects, h.sealings, fun other m g hother => ?_, ?_, fun touch htouch => ?_,
    fun g hpending => ?_⟩, hahead⟩
  · obtain hother | hother := List.mem_append.mp hother
    · exact h.reads other m g hother
    · cases List.mem_singleton.mp hother
      exact ⟨hsealed, hname⟩
  · rw [List.map_append, List.pairwise_append]
    refine ⟨h.ordered, List.pairwise_singleton _ _, fun g hg g' hg' => ?_⟩
    obtain ⟨touch, htouch, rfl⟩ := List.mem_map.mp hg
    rw [List.map_singleton, List.mem_singleton] at hg'
    subst hg'
    exact (hfrom ▸ h.confirmed touch htouch).trans hahead
  · rw [reached_of_pending hphase]
    obtain htouch | htouch := List.mem_append.mp htouch
    · exact (hfrom ▸ h.confirmed touch htouch).trans hahead
    · rw [List.mem_singleton.mp htouch]
      exact Nat.le_refl _
  · rw [hphase] at hpending
    cases hpending

theorem Kept.put (h : w.Kept base) (hsmall : generation ≤ i64Max) (manifest : Manifest) :
    World.Kept base { w with
      objects := w.objects.insert (storeKey base generation)
        (.snapshot (storeKey base generation) manifest)
      sealings := w.sealings ++ [(storeKey base generation, manifest)] } where
  bounded := h.bounded
  objects other sealedFor m hother := by
    simp only [StringMap.getElem?_insert] at hother
    split_ifs at hother
    · cases hother
      exact List.mem_append_right _ (List.mem_singleton_self _)
    · exact List.mem_append_left _ (h.objects other sealedFor m hother)
  sealings entry hentry := by
    obtain hentry | hentry := List.mem_append.mp hentry
    · exact h.sealings entry hentry
    · rw [List.mem_singleton.mp hentry]
      exact ⟨generation, hsmall, rfl⟩
  reads other m g hother := by
    obtain ⟨hmem, hname⟩ := h.reads other m g hother
    exact ⟨List.mem_append_left _ hmem, hname⟩
  ordered := h.ordered
  confirmed := h.confirmed
  numbered := h.numbered

theorem Kept.erase (h : w.Kept base) (key : String) :
    World.Kept base { w with objects := w.objects.erase key } where
  bounded := h.bounded
  objects other sealedFor m hother := by
    simp only [StringMap.getElem?_erase] at hother
    split_ifs at hother
    exact h.objects other sealedFor m hother
  sealings := h.sealings
  reads := h.reads
  ordered := h.ordered
  confirmed := h.confirmed
  numbered := h.numbered

theorem Kept.place {body : Body} (h : w.Kept base) (hideal : Ideal w (.place key body)) :
    World.Kept base { w with objects := w.objects.insert key body } where
  bounded := h.bounded
  objects other sealedFor m hother := by
    simp only [StringMap.getElem?_insert] at hother
    split_ifs at hother
    · cases hother
      exact hideal
    · exact h.objects other sealedFor m hother
  sealings := h.sealings
  reads := h.reads
  ordered := h.ordered
  confirmed := h.confirmed
  numbered := h.numbered

theorem Kept.number {deltas : List DeltaEntry} {prunes : Bool} {old : Option String}
    (h : w.Kept base) (hphase : w.phase = .held manifest old)
    (hguard : Confirms decimal base w (.next deltas prunes))
    (hfollowing : w.following decimal base = some generation) :
    World.Kept base { w with phase := .putting manifest old generation } := by
  obtain ⟨hbelow, hlisted⟩ := hguard.2 manifest old hphase
  have hnumber : w.recorded ≤ generation ∧ generation ≤ i64Max := by
    unfold following at hfollowing
    cases hnewest : w.newest base with
    | none =>
        rw [hnewest] at hfollowing
        cases hfollowing
        omega
    | some key =>
        rw [hnewest] at hfollowing
        obtain ⟨listed, hextract, rfl⟩ := Option.map_eq_some_iff.mp hfollowing
        have hahead := hlisted key listed hnewest hextract
        omega
  have hreached : w.reached = w.recorded := by
    unfold reached
    rw [hphase]
  refine ⟨h.bounded, h.objects, h.sealings, h.reads, h.ordered, fun touch htouch => ?_,
    fun g hpending => ?_⟩
  · exact hreached ▸ h.confirmed touch htouch
  · cases hpending
    exact hnumber

section Phases

variable {deltas : List DeltaEntry} {prunes : Bool}

theorem Kept.listed (hdecimal : DecimalClass decimal)
    (hbase : captureDigits decimal base.toList = none) {compacts : Bool} {newest : Option String}
    (h : w.Kept base) (hphase : w.phase = .listed compacts newest)
    (hnext : w.next decimal base deltas prunes = some t) :
    t.Kept base ∧ w.recorded ≤ t.recorded := by
  have hreached : w.reached = w.recorded := reached_of_pending (by rw [hphase]; rfl)
  unfold World.next at hnext
  rw [hphase] at hnext
  cases newest with
  | none =>
      cases hnext
      exact ⟨h.quiet hreached (by cases compacts <;> rfl), Nat.le_refl _⟩
  | some key =>
      dsimp only at hnext
      cases hread : w.read decimal key with
      | none =>
          rw [hread] at hnext
          cases hnext
          exact ⟨h.quiet hreached rfl, Nat.le_refl _⟩
      | some opened =>
          rw [hread] at hnext
          cases hnext
          exact h.read hdecimal hbase hreached (by cases compacts <;> rfl) hread

theorem Kept.held {old : Option String} (h : w.Kept base)
    (hphase : w.phase = .held manifest old) (hguard : Confirms decimal base w (.next deltas prunes))
    (hnext : w.next decimal base deltas prunes = some t) :
    t.Kept base ∧ w.recorded ≤ t.recorded := by
  have hreached : w.reached = w.recorded := reached_of_pending (by rw [hphase]; rfl)
  unfold World.next at hnext
  rw [hphase] at hnext
  dsimp only at hnext
  cases hfollowing : w.following decimal base with
  | none =>
      rw [hfollowing] at hnext
      cases hnext
      exact ⟨h.quiet hreached rfl, Nat.le_refl _⟩
  | some generation =>
      rw [hfollowing] at hnext
      dsimp only at hnext
      by_cases hsmall : generation < 2 ^ 64
      · rw [if_pos hsmall] at hnext
        cases hnext
        exact ⟨h.number hphase hguard hfollowing, Nat.le_refl _⟩
      · rw [if_neg hsmall] at hnext
        cases hnext
        exact ⟨h.quiet hreached rfl, Nat.le_refl _⟩

theorem Kept.putting {old : Option String} (h : w.Kept base)
    (hphase : w.phase = .putting manifest old generation)
    (hnext : w.next decimal base deltas prunes = some t) :
    t.Kept base ∧ w.recorded ≤ t.recorded := by
  have hreached : w.reached = w.recorded := by
    unfold reached
    rw [hphase]
  obtain ⟨hahead, hsmall⟩ := h.numbered generation (by rw [hphase]; rfl)
  unfold World.next at hnext
  rw [hphase] at hnext
  cases hnext
  have hput := h.put hsmall manifest
  refine ⟨⟨h.bounded, hput.objects, hput.sealings, fun key m g hmem => ?_, ?_, fun touch htouch =>
    ?_, fun g hpending => ?_⟩, Nat.le_refl _⟩
  · obtain hmem | hmem := List.mem_append.mp hmem
    · exact hput.reads key m g hmem
    · cases List.mem_singleton.mp hmem
  · rw [List.map_append, List.pairwise_append]
    refine ⟨h.ordered, List.pairwise_singleton _ _, fun g hg g' hg' => ?_⟩
    obtain ⟨touch, htouch, rfl⟩ := List.mem_map.mp hg
    rw [List.map_singleton, List.mem_singleton] at hg'
    subst hg'
    exact (hreached ▸ h.confirmed touch htouch).trans hahead
  · obtain htouch | htouch := List.mem_append.mp htouch
    · exact (hreached ▸ h.confirmed touch htouch).trans hahead
    · rw [List.mem_singleton.mp htouch]
      exact Nat.le_refl _
  · cases hpending
    exact ⟨hahead, hsmall⟩

theorem Kept.stored {old : Option String} (h : w.Kept base)
    (hphase : w.phase = .stored manifest old generation)
    (hnext : w.next decimal base deltas prunes = some t) :
    t.Kept base ∧ w.recorded ≤ t.recorded := by
  obtain ⟨hahead, hsmall⟩ := h.numbered generation (by rw [hphase]; rfl)
  have hreached : w.reached = generation := by
    unfold reached
    rw [hphase]
  have hrecorded : recordGeneration generation = generation := Nat.min_eq_left hsmall
  unfold World.next at hnext
  rw [hphase] at hnext
  cases hnext
  rw [hrecorded]
  refine ⟨⟨hsmall, h.objects, h.sealings, h.reads, h.ordered, fun touch htouch => ?_, nofun⟩,
    hahead⟩
  exact hreached ▸ h.confirmed touch htouch

theorem Kept.verifying (hdecimal : DecimalClass decimal)
    (hbase : captureDigits decimal base.toList = none) {old newest : Option String}
    (h : w.Kept base) (hphase : w.phase = .verifying manifest old newest)
    (hnext : w.next decimal base deltas prunes = some t) :
    t.Kept base ∧ w.recorded ≤ t.recorded := by
  have hreached : w.reached = w.recorded := reached_of_pending (by rw [hphase]; rfl)
  unfold World.next at hnext
  rw [hphase] at hnext
  cases newest with
  | none =>
      cases hnext
      exact ⟨h.quiet hreached (by split_ifs <;> rfl), Nat.le_refl _⟩
  | some key =>
      dsimp only at hnext
      cases hread : w.read decimal key with
      | none =>
          rw [hread] at hnext
          cases hnext
          exact ⟨h.quiet hreached rfl, Nat.le_refl _⟩
      | some opened =>
          rw [hread] at hnext
          cases hnext
          exact h.read hdecimal hbase hreached (by split_ifs <;> rfl) hread

theorem Kept.verified {old : Option String} (h : w.Kept base)
    (hphase : w.phase = .verified old) (hnext : w.next decimal base deltas prunes = some t) :
    t.Kept base ∧ w.recorded ≤ t.recorded := by
  have hreached : w.reached = w.recorded := reached_of_pending (by rw [hphase]; rfl)
  unfold World.next at hnext
  rw [hphase] at hnext
  cases old with
  | none =>
      cases hnext
      exact ⟨h.quiet hreached rfl, Nat.le_refl _⟩
  | some key =>
      cases prunes with
      | false =>
          cases hnext
          exact ⟨h.quiet hreached rfl, Nat.le_refl _⟩
      | true =>
          cases hnext
          have hidle : World.Kept base { w with phase := .idle } := h.quiet hreached rfl
          exact ⟨hidle.erase key, Nat.le_refl _⟩

end Phases

theorem Kept.next (hdecimal : DecimalClass decimal)
    (hbase : captureDigits decimal base.toList = none) {deltas : List DeltaEntry} {prunes : Bool}
    (h : w.Kept base) (hguard : Confirms decimal base w (.next deltas prunes))
    (hnext : w.next decimal base deltas prunes = some t) :
    t.Kept base ∧ w.recorded ≤ t.recorded := by
  cases hphase : w.phase with
  | idle =>
      unfold World.next at hnext
      rw [hphase] at hnext
      cases hnext
  | listed compacts newest => exact h.listed hdecimal hbase hphase hnext
  | held manifest old => exact h.held hphase hguard hnext
  | putting manifest old generation => exact h.putting hphase hnext
  | stored manifest old generation => exact h.stored hphase hnext
  | recorded manifest old =>
      unfold World.next at hnext
      rw [hphase] at hnext
      cases hnext
      exact ⟨h.quiet (reached_of_pending (by rw [hphase]; rfl)) rfl, Nat.le_refl _⟩
  | verifying manifest old newest => exact h.verifying hdecimal hbase hphase hnext
  | verified old => exact h.verified hphase hnext

theorem Kept.step (hdecimal : DecimalClass decimal)
    (hbase : captureDigits decimal base.toList = none) {a : Step} (h : w.Kept base)
    (hguard : Confirms decimal base w a) (hstep : w.step decimal base a = some t) :
    t.Kept base ∧ w.recorded ≤ t.recorded := by
  cases a with
  | start compacts =>
      unfold World.step at hstep
      cases hphase : w.phase with
      | idle =>
          have hreached : w.reached = w.recorded := reached_of_pending (by rw [hphase]; rfl)
          simp only [hphase] at hstep
          cases hstep
          exact ⟨h.quiet hreached rfl, Nat.le_refl _⟩
      | _ =>
          simp only [hphase] at hstep
          cases hstep
  | next deltas prunes => exact h.next hdecimal hbase hguard hstep
  | fail =>
      have hreached : w.reached = w.recorded := by
        unfold reached
        cases hphase : w.phase with
        | stored manifest old generation => exact absurd hphase (hguard.2 manifest old generation)
        | _ => rfl
      cases hstep
      exact ⟨h.quiet hreached rfl, Nat.le_refl _⟩
  | othersSeal generation manifest =>
      cases hstep
      exact ⟨h.put hguard.2 manifest, Nat.le_refl _⟩
  | delete key =>
      cases hstep
      exact ⟨h.erase key, Nat.le_refl _⟩
  | place key body =>
      cases hstep
      exact ⟨h.place hguard.1, Nat.le_refl _⟩

end World

end Steps

/-- A device whose recorded generation was stored by an earlier run. -/
def freshWorld (recorded : ℕ) : World := ⟨∅, [], recorded, [], .idle⟩

/-- As long as a compaction numbers its snapshot after a listing that is not behind what is recorded,
and records what it has put, the recorded generation never decreases, and whatever is read was
sealed for its name and is not behind anything read or written before. -/
theorem manifests_never_roll_back {decimal : Char → Bool} {base : String} {recorded : ℕ}
    {before after : List Step} {s t : World} (hdecimal : DecimalClass decimal)
    (hbase : captureDigits decimal base.toList = none) (hrecorded : recorded ≤ i64Max)
    (hbefore : Runs (World.step decimal base) (Confirms decimal base) (freshWorld recorded) before s)
    (hafter : Runs (World.step decimal base) (Confirms decimal base) s after t) :
    s.recorded ≤ t.recorded ∧
      (∀ key manifest generation, Touch.read key manifest generation ∈ t.history →
        (key, manifest) ∈ t.sealings ∧ key = storeKey base generation) ∧
      (t.history.map Touch.generation).Pairwise (· ≤ ·) := by
  have hstart : (freshWorld recorded).Kept base := by
    refine ⟨hrecorded, fun key sealedFor manifest hobject => ?_, ?_, ?_, .nil, ?_, nofun⟩
    · simp [freshWorld] at hobject
    · exact fun entry hentry => absurd hentry List.not_mem_nil
    · exact fun key manifest generation hread => absurd hread List.not_mem_nil
    · exact fun touch htouch => absurd htouch List.not_mem_nil
  have hs := hbefore.invariant hstart fun w a u hw hguard hstep =>
    (hw.step hdecimal hbase hguard hstep).1
  have ht := hafter.invariant (I := fun u => u.Kept base ∧ s.recorded ≤ u.recorded)
    ⟨hs, Nat.le_refl _⟩ fun w a u hw hguard hstep => by
      obtain ⟨hkept, hahead⟩ := hw.1.step hdecimal hbase hguard hstep
      exact ⟨hkept, hw.2.trans hahead⟩
  exact ⟨ht.2, ht.1.reads, ht.1.ordered⟩

def readSteps : List Step := [.othersSeal 1 ∅, .start false, .next [] false]

def compactSteps : List Step :=
  [.start true, .next [.sample "a" "phone" 1 10 none] false] ++ List.replicate 5 (.next [] false) ++
    [.next [] true, .start false, .next [] false]

def checkConfirms (w : World) : Step → Bool
  | .othersSeal generation _ => generation ≤ i64Max
  | .next _ _ => match w.phase with
      | .held _ _ => w.recorded < i64Max && (w.newest "rfm/").all fun key =>
          (extractGeneration Char.isDigit key).all fun generation =>
            w.recorded ≤ generation + 1 && generation < i64Max
      | _ => true
  | .start _ => true
  | .fail | .delete _ | .place _ _ => false

theorem confirms_of_checkConfirms (w : World) (a : Step) (h : checkConfirms w a = true) :
    Confirms Char.isDigit "rfm/" w a := by
  cases a with
  | start compacts => exact ⟨trivial, trivial⟩
  | next deltas prunes =>
      refine ⟨trivial, fun manifest old hphase => ?_⟩
      simp only [checkConfirms, hphase, Bool.and_eq_true, decide_eq_true_eq] at h
      refine ⟨h.1, fun key generation hkey hgeneration => ?_⟩
      simpa [hkey, hgeneration] using h.2
  | othersSeal generation manifest => exact ⟨trivial, of_decide_eq_true h⟩
  | _ => cases h

theorem readSteps_runs : (execute (checked checkConfirms (World.step Char.isDigit "rfm/"))
    (freshWorld 0) readSteps).isSome := by
  decide +kernel

def readWorld : World :=
  (execute (checked checkConfirms (World.step Char.isDigit "rfm/")) (freshWorld 0) readSteps).get
    readSteps_runs

theorem compactSteps_runs : (execute (checked checkConfirms (World.step Char.isDigit "rfm/"))
    readWorld compactSteps).isSome := by
  decide +kernel

def compactedWorld : World :=
  (execute (checked checkConfirms (World.step Char.isDigit "rfm/")) readWorld compactSteps).get
    compactSteps_runs

theorem manifests_never_roll_back_compacted :
    compactedWorld.history.map Touch.generation = [1, 1, 2, 2, 2] ∧
      readWorld.recorded ≤ compactedWorld.recorded ∧
      (∀ key manifest generation, Touch.read key manifest generation ∈ compactedWorld.history →
        (key, manifest) ∈ compactedWorld.sealings ∧ key = storeKey "rfm/" generation) ∧
      (compactedWorld.history.map Touch.generation).Pairwise (· ≤ ·) := by
  have hbefore : Runs (World.step Char.isDigit "rfm/") (Confirms Char.isDigit "rfm/") (freshWorld 0)
      readSteps readWorld :=
    checked_runs confirms_of_checkConfirms (Option.some_get _).symm
  have hafter : Runs (World.step Char.isDigit "rfm/") (Confirms Char.isDigit "rfm/") readWorld
      compactSteps compactedWorld :=
    checked_runs confirms_of_checkConfirms (Option.some_get _).symm
  have hdigits : DecimalClass Char.isDigit := fun _ _ => rfl
  exact ⟨by decide +kernel,
    manifests_never_roll_back hdigits (by decide) (Nat.zero_le _) hbefore hafter⟩

/-- A compaction has read the snapshot of generation 5 when it is deleted; the one of generation 3,
which is listed now, gives the new one its number. -/
def rolledBackSteps : List Step :=
  [.delete (storeKey "rfm/" 5), .next [] false, .next [] false, .next [] false]

def compactingSteps : List Step :=
  [.othersSeal 3 ∅, .othersSeal 5 ∅, .start true, .next [] false]

def checkIdeal (_ : World) : Step → Bool
  | .place _ _ => false
  | _ => true

theorem ideal_of_checkIdeal (w : World) (a : Step) (h : checkIdeal w a = true) : Ideal w a := by
  cases a with
  | place key body => cases h
  | _ => trivial

theorem manifest_rolls_back : ∃ s t,
    Runs (World.step Char.isDigit "rfm/") Ideal (freshWorld 0) compactingSteps s ∧
      Runs (World.step Char.isDigit "rfm/") Ideal s rolledBackSteps t ∧
      t.recorded < s.recorded := by
  have hbefore : (execute (checked checkIdeal (World.step Char.isDigit "rfm/")) (freshWorld 0)
      compactingSteps).map World.recorded = some 5 := by
    decide +kernel
  have hafter : ((execute (checked checkIdeal (World.step Char.isDigit "rfm/")) (freshWorld 0)
      compactingSteps).bind fun s => execute (checked checkIdeal (World.step Char.isDigit "rfm/")) s
        rolledBackSteps).map World.recorded = some 4 := by
    decide +kernel
  obtain ⟨s, hs, hfive⟩ := Option.map_eq_some_iff.mp hbefore
  rw [hs, Option.bind_some] at hafter
  obtain ⟨t, ht, hfour⟩ := Option.map_eq_some_iff.mp hafter
  refine ⟨s, t, checked_runs ideal_of_checkIdeal hs, checked_runs ideal_of_checkIdeal ht, ?_⟩
  rw [hfive, hfour]
  decide

end Rollback

end FileMirror
