import FileMirror.LastWriter
import FileMirror.Manifest

set_option autoImplicit false

namespace FileMirror

open LastWriter

theorem winnerKey_separates : Separates DeltaEntry.path winnerKey := by
  intro a b hpath hkey
  cases a
  cases b
  simp only [winnerKey, toLex_inj, Prod.mk.injEq] at hkey hpath
  obtain ⟨rfl, rfl, rfl, rfl, rfl, rfl, rfl, rfl, rfl⟩ := hkey
  cases hpath
  rfl

theorem lamport_le_of_winnerKey_le {a b : DeltaEntry} (h : winnerKey a ≤ winnerKey b) :
    a.lamport ≤ b.lamport := by
  rcases Prod.Lex.toLex_le_toLex.mp h with h | h
  · exact h.le
  · exact h.1.le

theorem winnerKey_lt_of_lamport_lt {a b : DeltaEntry} (h : a.lamport < b.lamport) :
    winnerKey a < winnerKey b :=
  Prod.Lex.toLex_lt_toLex.mpr (.inl h)

namespace Manifest

def registers (m : Manifest) (h : KeysMatch m) : Registers DeltaEntry.path where
  held p := m[p]?
  slot_eq := h _ _

/-- The entry of `d`'s path is `d` or one that supersedes it. -/
def Accounts (m : Manifest) (d : DeltaEntry) : Prop :=
  ∃ e, m[d.path]? = some e ∧ winnerKey d ≤ winnerKey e

theorem accounts_registers {m : Manifest} {h : KeysMatch m} {d : DeltaEntry} :
    LastWriter.Accounts winnerKey (registers m h) d ↔ m.Accounts d :=
  Iff.rfl

theorem eq_of_registers_eq {m n : Manifest} (hm : KeysMatch m) (hn : KeysMatch n)
    (h : registers m hm = registers n hn) : m = n :=
  Std.ExtTreeMap.ext_getElem? fun p => congrFun (congrArg Registers.held h) p

end Manifest

def conflictsOf : Option DeltaEntry → DeltaEntry → List RemoteConflict
  | none, _ => []
  | some existing, delta =>
      if isConflict delta existing then
        [if winnerKey existing < winnerKey delta then ⟨delta, existing⟩ else ⟨existing, delta⟩]
      else []

theorem mergeStep_manifest (r : MergeResult) (d : DeltaEntry) (p : String) :
    (mergeStep r d).manifest[p]? =
      if d.path = p then some (keep winnerKey r.manifest[p]? d) else r.manifest[p]? := by
  simp only [mergeStep, mergeEntry]
  cases hd : r.manifest[d.path]? with
  | none =>
      simp only [StringMap.getElem?_insert]
      split_ifs with hp
      · subst hp
        rw [hd, keep]
      · rfl
  | some existing =>
      by_cases hp : d.path = p
      · subst hp
        rw [if_pos rfl, hd]
        simp only [keep]
        split_ifs
        · rw [StringMap.getElem?_insert, if_pos rfl]
        · exact hd
      · rw [if_neg hp]
        dsimp only
        split_ifs
        · rw [StringMap.getElem?_insert, if_neg hp]
        · rfl

theorem mergeStep_conflicts (r : MergeResult) (d : DeltaEntry) :
    (mergeStep r d).conflicts = r.conflicts ++ conflictsOf r.manifest[d.path]? d := by
  simp only [mergeStep, mergeEntry]
  cases r.manifest[d.path]? with
  | none => simp only [conflictsOf, List.append_nil]
  | some existing =>
      simp only [conflictsOf]
      split_ifs <;> simp only [List.append_nil]

theorem mergeStep_remoteLamport (r : MergeResult) (d : DeltaEntry) :
    (mergeStep r d).remoteLamport = max r.remoteLamport d.lamport := by
  have h : (mergeEntry r d).remoteLamport = r.remoteLamport := by
    simp only [mergeEntry]
    cases r.manifest[d.path]? <;> rfl
  simp only [mergeStep, h]
  split_ifs <;> omega

theorem mergeStep_keysMatch {r : MergeResult} (h : r.manifest.KeysMatch) (d : DeltaEntry) :
    (mergeStep r d).manifest.KeysMatch := by
  intro p e he
  rw [mergeStep_manifest] at he
  split_ifs at he with hp
  · subst hp
    cases he
    exact slot_keep (fun e he => h _ _ he)
  · exact h p e he

theorem foldl_mergeStep_keysMatch {r : MergeResult} (h : r.manifest.KeysMatch)
    (ds : List DeltaEntry) : (ds.foldl mergeStep r).manifest.KeysMatch := by
  induction ds generalizing r with
  | nil => exact h
  | cons d ds ih => exact ih (mergeStep_keysMatch h d)

theorem mergeDeltas_keysMatch {m : Manifest} (h : m.KeysMatch) (ds : List DeltaEntry) :
    (mergeDeltas m ds).manifest.KeysMatch :=
  foldl_mergeStep_keysMatch h ds

theorem registers_mergeStep {r : MergeResult} (h : r.manifest.KeysMatch) (d : DeltaEntry) :
    (mergeStep r d).manifest.registers (mergeStep_keysMatch h d) =
      absorb winnerKey (r.manifest.registers h) d := by
  refine Registers.ext fun p => (mergeStep_manifest r d p).trans ?_
  simp only [absorb, Function.update_apply, Manifest.registers, eq_comm (a := p)]
  split_ifs with hp
  · rw [hp]
  · rfl

theorem registers_foldl_mergeStep {r : MergeResult} (h : r.manifest.KeysMatch)
    (ds : List DeltaEntry) :
    (ds.foldl mergeStep r).manifest.registers (foldl_mergeStep_keysMatch h ds) =
      absorbAll winnerKey (r.manifest.registers h) ds := by
  induction ds generalizing r with
  | nil => rfl
  | cons d ds ih =>
      refine (ih (mergeStep_keysMatch h d)).trans ?_
      rw [registers_mergeStep h d]
      rfl

theorem registers_mergeDeltas {m : Manifest} (h : m.KeysMatch) (ds : List DeltaEntry) :
    (mergeDeltas m ds).manifest.registers (mergeDeltas_keysMatch h ds) =
      absorbAll winnerKey (m.registers h) ds :=
  registers_foldl_mergeStep (r := ⟨m, [], maxLamport m⟩) h ds

theorem maxLamport_le {m : Manifest} {n : ℕ} :
    maxLamport m ≤ n ↔ ∀ e ∈ m.values, e.lamport ≤ n := by
  simp only [maxLamport]
  cases h : (m.values.map DeltaEntry.lamport).max? with
  | none =>
      rw [List.max?_eq_none_iff, List.map_eq_nil_iff] at h
      simp [h]
  | some a =>
      rw [List.max?_eq_some_iff] at h
      obtain ⟨hmem, hle⟩ := h
      refine ⟨fun ha e he => (hle _ (List.mem_map_of_mem he)).trans ha, fun ha => ?_⟩
      obtain ⟨e, he, rfl⟩ := List.mem_map.mp hmem
      exact ha e he

theorem foldl_mergeStep_remoteLamport_le {r : MergeResult} {ds : List DeltaEntry} {n : ℕ} :
    (ds.foldl mergeStep r).remoteLamport ≤ n ↔
      r.remoteLamport ≤ n ∧ ∀ d ∈ ds, d.lamport ≤ n := by
  induction ds generalizing r with
  | nil => simp
  | cons d ds ih =>
      rw [List.foldl_cons, ih, mergeStep_remoteLamport, max_le_iff, List.forall_mem_cons, and_assoc]

theorem mergeDeltas_remoteLamport_le {m : Manifest} {ds : List DeltaEntry} {n : ℕ} :
    (mergeDeltas m ds).remoteLamport ≤ n ↔
      (∀ e ∈ m.values, e.lamport ≤ n) ∧ ∀ d ∈ ds, d.lamport ≤ n := by
  rw [mergeDeltas, foldl_mergeStep_remoteLamport_le, maxLamport_le]

namespace Manifest

theorem Accounts.merged {m : Manifest} (h : m.KeysMatch) {d : DeltaEntry} (hd : m.Accounts d)
    (ds : List DeltaEntry) : (mergeDeltas m ds).manifest.Accounts d := by
  rw [← accounts_registers (h := mergeDeltas_keysMatch h ds), registers_mergeDeltas h]
  exact LastWriter.Accounts.mono (r := m.registers h) hd (below_absorbAll _ ds)

theorem accounts_mergeDeltas {m : Manifest} (h : m.KeysMatch) {ds : List DeltaEntry}
    {d : DeltaEntry} (hd : d ∈ ds) : (mergeDeltas m ds).manifest.Accounts d := by
  rw [← accounts_registers (h := mergeDeltas_keysMatch h ds), registers_mergeDeltas h]
  exact accounts_absorbAll hd

theorem KeysMatch.accounts {m : Manifest} (h : m.KeysMatch) {p : String} {e : DeltaEntry}
    (he : m[p]? = some e) : m.Accounts e :=
  ⟨e, by rw [h p e he, he], le_rfl⟩

end Manifest

theorem mergeDeltas_mem {m : Manifest} (h : m.KeysMatch) {ds : List DeltaEntry} {p : String}
    {e : DeltaEntry} (he : (mergeDeltas m ds).manifest[p]? = some e) :
    m[p]? = some e ∨ (e.path = p ∧ e ∈ ds) := by
  have hpath := mergeDeltas_keysMatch h ds p e he
  have held : ((mergeDeltas m ds).manifest.registers (mergeDeltas_keysMatch h ds)).held p
      = some e := he
  rw [registers_mergeDeltas h] at held
  exact (held_absorbAll held).imp_right fun hmem => ⟨hpath, hmem⟩

/-- Everything that competes for a path: the snapshot's entry and the deltas of the path. -/
def candidates (snapshot : Manifest) (deltas : List DeltaEntry) (p : String) :
    List DeltaEntry :=
  snapshot[p]?.toList ++ deltas.filter (·.path = p)

theorem mem_candidates {m : Manifest} {ds : List DeltaEntry} {p : String} {e : DeltaEntry} :
    e ∈ candidates m ds p ↔ m[p]? = some e ∨ (e.path = p ∧ e ∈ ds) := by
  simp only [candidates, List.mem_append, Option.mem_toList, List.mem_filter, decide_eq_true_eq,
    and_comm]

theorem mergeDeltas_eq_max {m : Manifest} (h : m.KeysMatch) (ds : List DeltaEntry) (p : String)
    (e : DeltaEntry) : (mergeDeltas m ds).manifest[p]? = some e ↔
      e ∈ candidates m ds p ∧ ∀ c ∈ candidates m ds p, winnerKey c ≤ winnerKey e := by
  have upper : ∀ {e c}, (mergeDeltas m ds).manifest[p]? = some e → c ∈ candidates m ds p →
      winnerKey c ≤ winnerKey e := by
    intro e c he hc
    have haccounts : c.path = p ∧ (mergeDeltas m ds).manifest.Accounts c := by
      rcases mem_candidates.mp hc with hc | ⟨hpath, hc⟩
      · exact ⟨h p c hc, (h.accounts hc).merged h ds⟩
      · exact ⟨hpath, Manifest.accounts_mergeDeltas h hc⟩
    obtain ⟨hpath, f, hf, hle⟩ := haccounts
    rw [hpath, he, Option.some.injEq] at hf
    exact hf ▸ hle
  have path_of_candidate : ∀ {c}, c ∈ candidates m ds p → c.path = p := fun hc =>
    (mem_candidates.mp hc).elim (h p _) And.left
  constructor
  · intro he
    exact ⟨mem_candidates.mpr (mergeDeltas_mem h he), fun c hc => upper he hc⟩
  · rintro ⟨hmem, hmax⟩
    have haccounts : (mergeDeltas m ds).manifest.Accounts e := by
      rcases mem_candidates.mp hmem with he | ⟨-, he⟩
      · exact (h.accounts he).merged h ds
      · exact Manifest.accounts_mergeDeltas h he
    obtain ⟨f, hf, hle⟩ := haccounts
    rw [path_of_candidate hmem] at hf
    have hfmem := mem_candidates.mpr (mergeDeltas_mem h hf)
    have hpath : e.path = f.path :=
      (path_of_candidate hmem).trans (path_of_candidate hfmem).symm
    rw [winnerKey_separates e f hpath (le_antisymm hle (hmax f hfmem))]
    exact hf

theorem maxLamport_mergeDeltas {m : Manifest} (h : m.KeysMatch) (ds : List DeltaEntry) :
    maxLamport (mergeDeltas m ds).manifest = (mergeDeltas m ds).remoteLamport := by
  refine eq_of_forall_ge_iff fun n => ?_
  rw [maxLamport_le, mergeDeltas_remoteLamport_le]
  constructor
  · intro hn
    have bound : ∀ {d}, (mergeDeltas m ds).manifest.Accounts d → d.lamport ≤ n := by
      rintro d ⟨e, he, hle⟩
      exact (lamport_le_of_winnerKey_le hle).trans (hn e (Manifest.mem_values.mpr ⟨_, he⟩))
    refine ⟨fun e he => ?_, fun d hd => bound (Manifest.accounts_mergeDeltas h hd)⟩
    obtain ⟨p, hp⟩ := Manifest.mem_values.mp he
    exact bound ((h.accounts hp).merged h ds)
  · rintro ⟨hm, hds⟩ e he
    obtain ⟨p, hp⟩ := Manifest.mem_values.mp he
    rcases mergeDeltas_mem h hp with hp | ⟨-, hmem⟩
    · exact hm e (Manifest.mem_values.mpr ⟨p, hp⟩)
    · exact hds e hmem

theorem mergeDeltas_mergeDeltas {m : Manifest} (h : m.KeysMatch) {ds first rest : List DeltaEntry}
    (hfirst : first ⊆ ds) (hrest : rest ⊆ ds) (hall : ds ⊆ first ++ rest) :
    (mergeDeltas (mergeDeltas m first).manifest rest).manifest = (mergeDeltas m ds).manifest ∧
      (mergeDeltas (mergeDeltas m first).manifest rest).remoteLamport =
        (mergeDeltas m ds).remoteLamport := by
  have hmanifest : (mergeDeltas (mergeDeltas m first).manifest rest).manifest =
      (mergeDeltas m ds).manifest := by
    refine Manifest.eq_of_registers_eq (mergeDeltas_keysMatch (mergeDeltas_keysMatch h _) _)
      (mergeDeltas_keysMatch h _) ?_
    rw [registers_mergeDeltas (mergeDeltas_keysMatch h _), registers_mergeDeltas h,
      registers_mergeDeltas h]
    exact absorbAll_absorbAll winnerKey_separates hfirst hrest hall
  refine ⟨hmanifest, ?_⟩
  rw [← maxLamport_mergeDeltas (mergeDeltas_keysMatch h first), hmanifest,
    maxLamport_mergeDeltas h]

theorem mergeDeltas_eq_of_mem_iff {m : Manifest} (h : m.KeysMatch) {ds other : List DeltaEntry}
    (hmem : ∀ d, d ∈ other ↔ d ∈ ds) :
    (mergeDeltas m other).manifest = (mergeDeltas m ds).manifest ∧
      (mergeDeltas m other).remoteLamport = (mergeDeltas m ds).remoteLamport := by
  constructor
  · refine Manifest.eq_of_registers_eq (mergeDeltas_keysMatch h _) (mergeDeltas_keysMatch h _) ?_
    rw [registers_mergeDeltas h, registers_mergeDeltas h]
    exact absorbAll_eq_of_mem_iff winnerKey_separates hmem
  · refine eq_of_forall_ge_iff fun n => ?_
    simp only [mergeDeltas_remoteLamport_le, hmem]

/-- `merge_deltas` depends on the set of deltas alone, and yields the greatest candidate of
every path whether the deltas arrive at once or in two overlapping parts. -/
theorem mergeDeltas_order_free (snapshot : Manifest) (hsnapshot : snapshot.KeysMatch)
    (deltas : List DeltaEntry) :
    (∀ other : List DeltaEntry, (∀ d, d ∈ other ↔ d ∈ deltas) →
      (mergeDeltas snapshot other).manifest = (mergeDeltas snapshot deltas).manifest ∧
      (mergeDeltas snapshot other).remoteLamport =
        (mergeDeltas snapshot deltas).remoteLamport) ∧
    (∀ (p : String) (e : DeltaEntry), (mergeDeltas snapshot deltas).manifest[p]? = some e ↔
      e ∈ candidates snapshot deltas p ∧
        ∀ c ∈ candidates snapshot deltas p, winnerKey c ≤ winnerKey e) ∧
    (∀ first rest : List DeltaEntry, first ⊆ deltas → rest ⊆ deltas → deltas ⊆ first ++ rest →
      (mergeDeltas (mergeDeltas snapshot first).manifest rest).manifest =
        (mergeDeltas snapshot deltas).manifest ∧
      (mergeDeltas (mergeDeltas snapshot first).manifest rest).remoteLamport =
        (mergeDeltas snapshot deltas).remoteLamport) :=
  ⟨fun _ h => mergeDeltas_eq_of_mem_iff hsnapshot h, mergeDeltas_eq_max hsnapshot deltas,
    fun _ _ hfirst hrest hall => mergeDeltas_mergeDeltas hsnapshot hfirst hrest hall⟩

theorem mergeDeltas_order_free_overlap :
    let first := DeltaEntry.sample "a" "laptop" 1 10 none
    let second := DeltaEntry.sample "a" "phone" 2 11 (some 10)
    let other := DeltaEntry.sample "b" "phone" 3 12 none
    (mergeDeltas (.ofEntries [first]) [other, second, other]).manifest =
      (mergeDeltas (.ofEntries [first]) [second, other]).manifest ∧
    (mergeDeltas (mergeDeltas (.ofEntries [first]) [second]).manifest [second, other]).manifest =
      (mergeDeltas (.ofEntries [first]) [second, other]).manifest := by
  intro first second other
  have h := mergeDeltas_order_free (.ofEntries [first]) (.ofEntries _) [second, other]
  exact ⟨(h.1 [other, second, other] (by simp)).1,
    (h.2.2 [second] [second, other] (by simp) (by simp) (by simp)).1⟩

end FileMirror
