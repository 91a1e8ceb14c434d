import Mathlib.Algebra.GroupWithZero.Nat
import Mathlib.Data.Prod.Lex
import Mathlib.Data.String.Basic
import Mathlib.Order.WithBot
import Mathlib.Order.Fin.Basic
import Mathlib.Data.Fin.Basic
import Std.Data.ExtTreeMap

set_option autoImplicit false

namespace FileMirror

/-- A 32-byte digest, read as one big-endian number: the byte order is then the numeric one. -/
abbrev ContentHash := Fin (2 ^ 256)

instance digest_neZero : NeZero (2 ^ 256) := inferInstance

instance digest_transOrd : Std.TransOrd ContentHash := inferInstance

instance digest_lawfulBEq : LawfulBEq ContentHash := inferInstance

/-- An ordered map, as the source's `BTreeMap<String, _>`. Lean compares strings by code point
and the source by UTF-8 byte, which is the same order. -/
abbrev StringMap (β : Type) := Std.ExtTreeMap String β

def StringMap.single {β : Type} (k : String) (v : β) : StringMap β :=
  Std.ExtTreeMap.insert ∅ k v

namespace StringMap

variable {β : Type} {m : StringMap β} {p q : String} {v : β}

theorem getElem?_insert : (m.insert p v)[q]? = if p = q then some v else m[q]? := by
  simp only [Std.ExtTreeMap.getElem?_insert, Std.compare_eq_iff_eq]

theorem getElem?_erase : (m.erase p)[q]? = if p = q then none else m[q]? := by
  simp only [Std.ExtTreeMap.getElem?_erase, Std.compare_eq_iff_eq]

theorem getElem?_ofList {l : List (String × β)} (hl : l.Pairwise fun a b => a.1 ≠ b.1) :
    (Std.ExtTreeMap.ofList l compare)[p]? = some v ↔ (p, v) ∈ l := by
  have hdistinct : l.Pairwise fun a b => ¬ compare a.1 b.1 = .eq :=
    hl.imp fun h heq => h (Std.compare_eq_iff_eq.mp heq)
  constructor
  · intro h
    by_cases hp : ∃ w, (p, w) ∈ l
    · obtain ⟨w, hw⟩ := hp
      rw [Std.ExtTreeMap.getElem?_ofList_of_mem (Std.compare_eq_iff_eq.mpr rfl) hdistinct hw,
        Option.some.injEq] at h
      rwa [← h]
    · rw [Std.ExtTreeMap.getElem?_ofList_of_contains_eq_false] at h
      · cases h
      · simpa using fun w => not_exists.mp hp w
  · exact Std.ExtTreeMap.getElem?_ofList_of_mem (Std.compare_eq_iff_eq.mpr rfl) hdistinct

theorem pairwise_toList : m.toList.Pairwise fun a b => a.1 ≠ b.1 :=
  m.distinct_keys_toList.imp fun h heq => h (Std.compare_eq_iff_eq.mpr heq)

end StringMap

structure DeltaEntry where
  path : String
  objectKey : String
  plaintextHash : ContentHash
  size : ℕ
  mtimeUtc : ℕ
  deleted : Bool
  deletedAt : ℕ
  lamport : ℕ
  deviceId : String
  baseHash : Option ContentHash
  deriving DecidableEq

/-- A live version of a file with the fields that the merge looks at, for concrete runs. -/
def DeltaEntry.sample (path deviceId : String) (lamport : ℕ) (plaintextHash : ContentHash)
    (baseHash : Option ContentHash) : DeltaEntry :=
  { path, objectKey := "data/" ++ path, plaintextHash, size := 1, mtimeUtc := 0, deleted := false,
    deletedAt := 0, lamport, deviceId, baseHash }

abbrev Manifest := StringMap DeltaEntry

namespace Manifest

def values (m : Manifest) : List DeltaEntry := m.toList.map Prod.snd

/-- `entries.into_iter().map(|entry| (entry.path.clone(), entry)).collect()`. -/
def ofEntries (entries : List DeltaEntry) : Manifest :=
  entries.foldl (fun m entry => m.insert entry.path entry) ∅

def KeysMatch (m : Manifest) : Prop :=
  ∀ (p : String) (e : DeltaEntry), m[p]? = some e → e.path = p

theorem mem_values {m : Manifest} {e : DeltaEntry} : e ∈ m.values ↔ ∃ p : String, m[p]? = some e := by
  simp only [values, List.mem_map, Prod.exists, exists_eq_right,
    Std.ExtTreeMap.mem_toList_iff_getElem?_eq_some]

theorem KeysMatch.insert {m : Manifest} (h : KeysMatch m) (e : DeltaEntry) :
    KeysMatch (m.insert e.path e) := by
  intro p f hf
  rw [StringMap.getElem?_insert] at hf
  split_ifs at hf with hp
  · cases hf
    exact hp
  · exact h p f hf

theorem KeysMatch.empty : KeysMatch ∅ := by
  intro p e h
  simp at h

theorem keysMatch_insertAll (es : List DeltaEntry) {m : Manifest} (h : KeysMatch m) :
    KeysMatch (es.foldl (fun m entry => m.insert entry.path entry) m) := by
  induction es generalizing m with
  | nil => exact h
  | cons e es ih => exact ih (h.insert e)

theorem KeysMatch.ofEntries (entries : List DeltaEntry) : KeysMatch (ofEntries entries) :=
  keysMatch_insertAll entries .empty

theorem getElem?_insertAll_of_ne {es : List DeltaEntry} {m : Manifest} {q : String}
    (h : ∀ e ∈ es, e.path ≠ q) :
    (es.foldl (fun m entry => m.insert entry.path entry) m)[q]? = m[q]? := by
  induction es generalizing m with
  | nil => rfl
  | cons e es ih =>
      rw [List.foldl_cons, ih fun f hf => h f (List.mem_cons_of_mem _ hf), StringMap.getElem?_insert,
        if_neg (h e (List.mem_cons_self ..))]

theorem getElem?_insertAll_of_mem {es : List DeltaEntry} {m : Manifest} {e : DeltaEntry}
    (hes : es.Pairwise fun e f => e.path ≠ f.path) (h : e ∈ es) :
    (es.foldl (fun m entry => m.insert entry.path entry) m)[e.path]? = some e := by
  induction es generalizing m with
  | nil => cases h
  | cons f es ih =>
      obtain ⟨hf, hes⟩ := List.pairwise_cons.mp hes
      rw [List.foldl_cons]
      cases h with
      | head =>
          rw [getElem?_insertAll_of_ne fun g hg => (hf g hg).symm, StringMap.getElem?_insert, if_pos rfl]
      | tail _ h => exact ih hes h

theorem KeysMatch.pairwise_values {m : Manifest} (h : KeysMatch m) :
    m.values.Pairwise fun e f => e.path ≠ f.path := by
  have hpath : ∀ a ∈ m.toList, a.2.path = a.1 := fun a ha =>
    h a.1 a.2 (Std.ExtTreeMap.mem_toList_iff_getElem?_eq_some.mp ha)
  refine List.pairwise_map.mpr (StringMap.pairwise_toList.imp_of_mem ?_)
  intro a b ha hb hab
  rwa [hpath a ha, hpath b hb]

theorem ofEntries_values {m : Manifest} (h : KeysMatch m) : ofEntries m.values = m := by
  refine Std.ExtTreeMap.ext_getElem? fun q => ?_
  cases hq : m[q]? with
  | some e =>
      rw [← h q e hq]
      exact getElem?_insertAll_of_mem h.pairwise_values (mem_values.mpr ⟨q, hq⟩)
  | none =>
      refine (getElem?_insertAll_of_ne fun e he hpath => ?_).trans (by simp)
      obtain ⟨p, hp⟩ := mem_values.mp he
      rw [← h p e hp, hpath, hq] at hp
      cases hp

end Manifest

/-- The lexicographic order of the source's nine-field tuple; `None` is below every hash. -/
abbrev WinnerKey :=
  ℕ ×ₗ String ×ₗ ContentHash ×ₗ WithBot ContentHash ×ₗ Bool ×ₗ ℕ ×ₗ ℕ ×ₗ ℕ ×ₗ String

def winnerKey (d : DeltaEntry) : WinnerKey :=
  toLex (d.lamport, toLex (d.deviceId, toLex (d.plaintextHash, toLex (d.baseHash,
    toLex (d.deleted, toLex (d.deletedAt, toLex (d.size, toLex (d.mtimeUtc, d.objectKey))))))))

structure RemoteConflict where
  winner : DeltaEntry
  loser : DeltaEntry
  deriving DecidableEq

structure MergeResult where
  manifest : Manifest
  conflicts : List RemoteConflict
  remoteLamport : ℕ

/-- Two concurrent writes of different content: neither descends from the other. -/
def isConflict (delta existing : DeltaEntry) : Bool :=
  let sameContent := delta.plaintextHash == existing.plaintextHash
  let deltaDescendsExisting := delta.baseHash == some existing.plaintextHash
  let existingDescendsDelta := existing.baseHash == some delta.plaintextHash
  !sameContent && !deltaDescendsExisting && !existingDescendsDelta

/-- The body of `merge_deltas`'s loop, up to the lamport. -/
def mergeEntry (r : MergeResult) (delta : DeltaEntry) : MergeResult :=
  match r.manifest[delta.path]? with
  | none => { r with manifest := r.manifest.insert delta.path delta }
  | some existing =>
      let deltaWins := winnerKey existing < winnerKey delta
      let conflict : RemoteConflict :=
        if deltaWins then ⟨delta, existing⟩ else ⟨existing, delta⟩
      { r with
        conflicts := if isConflict delta existing then r.conflicts ++ [conflict] else r.conflicts
        manifest := if deltaWins then r.manifest.insert delta.path delta else r.manifest }

def mergeStep (r : MergeResult) (delta : DeltaEntry) : MergeResult :=
  let r := mergeEntry r delta
  { r with remoteLamport := if delta.lamport > r.remoteLamport then delta.lamport
                            else r.remoteLamport }

/-- `snapshot.values().max_by(lamport).map_or(0, |d| d.lamport)`. -/
def maxLamport (m : Manifest) : ℕ := (m.values.map DeltaEntry.lamport).max?.getD 0

def mergeDeltas (snapshot : Manifest) (deltas : List DeltaEntry) : MergeResult :=
  deltas.foldl mergeStep ⟨snapshot, [], maxLamport snapshot⟩

end FileMirror
