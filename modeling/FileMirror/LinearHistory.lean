import Mathlib.Data.List.Chain
import Mathlib.Data.List.Perm.Subperm
import FileMirror.ManifestMerge
import FileMirror.RemoteConflict

set_option autoImplicit false

namespace FileMirror

open LastWriter

def conflictsFrom : Option DeltaEntry → List DeltaEntry → List RemoteConflict
  | _, [] => []
  | o, d :: ds => conflictsOf o d ++ conflictsFrom (some (keep winnerKey o d)) ds

def keepAll (o : Option DeltaEntry) (ds : List DeltaEntry) : Option DeltaEntry :=
  ds.foldl (fun o d => some (keep winnerKey o d)) o

theorem conflictsOf_path {o : Option DeltaEntry} {d : DeltaEntry} {c : RemoteConflict}
    (ho : ∀ e, o = some e → e.path = d.path) (hc : c ∈ conflictsOf o d) :
    c.winner.path = d.path ∧ c.loser.path = d.path := by
  cases o with
  | none => cases hc
  | some e =>
      have he := ho e rfl
      simp only [conflictsOf] at hc
      split_ifs at hc
      · rw [List.mem_singleton.mp hc]
        exact ⟨rfl, he⟩
      · rw [List.mem_singleton.mp hc]
        exact ⟨he, rfl⟩
      · cases hc

theorem filter_conflictsOf {o : Option DeltaEntry} {d : DeltaEntry} (p : String)
    (ho : ∀ e, o = some e → e.path = d.path) :
    (conflictsOf o d).filter (·.loser.path = p) =
      if d.path = p then conflictsOf o d else [] := by
  split_ifs with hp
  · refine List.filter_eq_self.mpr fun c hc => ?_
    simpa [hp] using (conflictsOf_path ho hc).2
  · refine List.filter_eq_nil_iff.mpr fun c hc => ?_
    simpa [(conflictsOf_path ho hc).2] using hp

theorem foldl_mergeStep_conflicts {r : MergeResult} (h : r.manifest.KeysMatch)
    (ds : List DeltaEntry) (p : String) :
    (ds.foldl mergeStep r).conflicts.filter (·.loser.path = p) =
      r.conflicts.filter (·.loser.path = p) ++
        conflictsFrom r.manifest[p]? (ds.filter (·.path = p)) := by
  induction ds generalizing r with
  | nil => simp [conflictsFrom]
  | cons d ds ih =>
      rw [List.foldl_cons, ih (mergeStep_keysMatch h d), mergeStep_conflicts, List.filter_append,
        filter_conflictsOf p fun e he => h _ e he, mergeStep_manifest, List.append_assoc]
      by_cases hp : d.path = p
      · subst hp
        simp [conflictsFrom]
      · simp [hp]

theorem mergeDeltas_conflicts_of_path {m : Manifest} (h : m.KeysMatch) (ds : List DeltaEntry)
    (p : String) : (mergeDeltas m ds).conflicts.filter (·.loser.path = p) =
      conflictsFrom m[p]? (ds.filter (·.path = p)) := by
  rw [mergeDeltas, foldl_mergeStep_conflicts h]
  rfl

theorem conflictsFrom_append (o : Option DeltaEntry) (as bs : List DeltaEntry) :
    conflictsFrom o (as ++ bs) = conflictsFrom o as ++ conflictsFrom (keepAll o as) bs := by
  induction as generalizing o with
  | nil => rfl
  | cons a as ih =>
      rw [List.cons_append, conflictsFrom, ih, conflictsFrom, List.append_assoc]
      rfl

theorem isConflict_eq_false {d v : DeltaEntry} : isConflict d v = false ↔
    d.plaintextHash = v.plaintextHash ∨ d.baseHash = some v.plaintextHash ∨
      v.baseHash = some d.plaintextHash := by
  simp only [isConflict, Bool.and_eq_false_iff, Bool.not_eq_false', beq_iff_eq, or_assoc]

theorem conflictsOf_eq_nil {d v : DeltaEntry} :
    conflictsOf (some v) d = [] ↔ isConflict d v = false := by
  cases h : isConflict d v <;> simp [conflictsOf, h]

section Superseded

variable {v : DeltaEntry} {ds : List DeltaEntry} (hds : ∀ d ∈ ds, winnerKey d ≤ winnerKey v)

include hds

theorem keepAll_superseded : keepAll (some v) ds = some v := by
  induction ds with
  | nil => rfl
  | cons d ds ih =>
      have hd : ¬ winnerKey v < winnerKey d := (hds d (List.mem_cons_self ..)).not_gt
      rw [keepAll, List.foldl_cons, keep, if_neg hd]
      exact ih fun e he => hds e (List.mem_cons_of_mem _ he)

theorem conflictsFrom_superseded :
    conflictsFrom (some v) ds = [] ↔ ∀ d ∈ ds, isConflict d v = false := by
  induction ds with
  | nil => simp [conflictsFrom]
  | cons d ds ih =>
      have hd : ¬ winnerKey v < winnerKey d := (hds d (List.mem_cons_self ..)).not_gt
      rw [conflictsFrom, List.append_eq_nil_iff, conflictsOf_eq_nil, keep, if_neg hd,
        ih fun e he => hds e (List.mem_cons_of_mem _ he), List.forall_mem_cons]

end Superseded

/-- Versions of one path, each written on top of the one before it. -/
structure LinearChain (p : String) (chain : List DeltaEntry) : Prop where
  path_eq : ∀ d ∈ chain, d.path = p
  lamport_lt : chain.Pairwise fun a b => a.lamport < b.lamport
  base_eq : chain.IsChain fun a b => b.baseHash = some a.plaintextHash

theorem isConflict_of_base {d v : DeltaEntry} (h : d.baseHash = some v.plaintextHash) :
    isConflict d v = false :=
  isConflict_eq_false.mpr (.inr (.inl h))

theorem conflictsFrom_chain {v : DeltaEntry} {chain : List DeltaEntry}
    (hlamport : (v :: chain).Pairwise fun a b => a.lamport < b.lamport)
    (hbase : (v :: chain).IsChain fun a b => b.baseHash = some a.plaintextHash) :
    conflictsFrom (some v) chain = [] := by
  induction chain generalizing v with
  | nil => rfl
  | cons d chain ih =>
      have hlt : v.lamport < d.lamport :=
        (List.pairwise_cons.mp hlamport).1 d (List.mem_cons_self ..)
      have hdescends := (List.isChain_cons_cons.mp hbase).1
      rw [conflictsFrom, conflictsOf_eq_nil.mpr (isConflict_of_base hdescends), keep,
        if_pos (winnerKey_lt_of_lamport_lt hlt)]
      exact ih (List.pairwise_cons.mp hlamport).2 (List.isChain_cons_cons.mp hbase).2

namespace LinearChain

variable {p : String} {chain : List DeltaEntry}

theorem take (h : LinearChain p chain) (k : ℕ) : LinearChain p (chain.take k) where
  path_eq d hd := h.path_eq d (List.mem_of_mem_take hd)
  lamport_lt := h.lamport_lt.sublist (List.take_sublist ..)
  base_eq := h.base_eq.take k

theorem le_getLast (h : LinearChain p chain) {v d : DeltaEntry} (hv : chain.getLast? = some v)
    (hd : d ∈ chain) : winnerKey d ≤ winnerKey v := by
  obtain ⟨init, rfl⟩ := List.getLast?_eq_some_iff.mp hv
  rcases List.mem_append.mp hd with hd | hd
  · exact (winnerKey_lt_of_lamport_lt
      ((List.pairwise_append.mp h.lamport_lt).2.2 d hd v (List.mem_singleton.mpr rfl))).le
  · rw [List.mem_singleton.mp hd]

theorem mergeDeltas_eq_getLast (h : LinearChain p chain) :
    (mergeDeltas ∅ chain).manifest[p]? = chain.getLast? := by
  refine Option.ext fun v => ?_
  rw [mergeDeltas_eq_max .empty]
  have hmem : ∀ d, d ∈ candidates ∅ chain p ↔ d ∈ chain := by
    intro d
    rw [mem_candidates]
    simpa using h.path_eq d
  constructor
  · rintro ⟨hv, hmax⟩
    rw [hmem] at hv
    obtain ⟨w, hw⟩ := List.getLast?_isSome.mpr (List.ne_nil_of_mem hv) |> Option.isSome_iff_exists.mp
    have hwmem : w ∈ chain := List.mem_of_getLast? hw
    have heq : w = v := winnerKey_separates w v ((h.path_eq w hwmem).trans (h.path_eq v hv).symm)
      (le_antisymm (hmax w ((hmem w).mpr hwmem)) (h.le_getLast hw hv))
    rw [hw, heq]
  · intro hv
    exact ⟨(hmem v).mpr (List.mem_of_getLast? hv), fun c hc => h.le_getLast hv ((hmem c).mp hc)⟩

theorem nodup (h : LinearChain p chain) : chain.Nodup :=
  h.lamport_lt.imp fun hlt heq => (heq ▸ hlt).false

theorem isChain_drop (h : LinearChain p chain) {k : ℕ} {v : DeltaEntry}
    (hv : (chain.take k).getLast? = some v) :
    (v :: chain.drop k).Pairwise (fun a b => a.lamport < b.lamport) ∧
      (v :: chain.drop k).IsChain fun a b => b.baseHash = some a.plaintextHash := by
  obtain ⟨init, hinit⟩ := List.getLast?_eq_some_iff.mp hv
  have hsuffix : (v :: chain.drop k) <:+ chain := by
    refine ⟨init, ?_⟩
    rw [← List.singleton_append, ← List.append_assoc, ← hinit, List.take_append_drop]
  exact ⟨h.lamport_lt.sublist hsuffix.sublist, h.base_eq.suffix hsuffix⟩

theorem log_split (h : LinearChain p chain) {k : ℕ} {log : List DeltaEntry}
    (hlog : log.Sublist chain) (hcover : ∀ d ∈ chain.drop k, d ∈ log) :
    ∃ folded : List DeltaEntry, folded.Sublist (chain.take k) ∧ log = folded ++ chain.drop k ∧
      ∀ d, d ∈ folded ↔ d ∈ log ∧ d ∈ chain.take k := by
  have hdisjoint : ∀ d ∈ chain.take k, d ∉ chain.drop k := by
    have hnodup := h.nodup
    rw [← List.take_append_drop k chain] at hnodup
    exact fun d ht hd => (List.nodup_append.mp hnodup).2.2 d ht d hd rfl
  rw [← List.take_append_drop k chain, List.sublist_append_iff] at hlog
  obtain ⟨folded, rest, rfl, hfolded, hrest⟩ := hlog
  have hsubset : chain.drop k ⊆ rest := by
    intro d hd
    rcases List.mem_append.mp (hcover d hd) with hf | hr
    · exact absurd hd (hdisjoint d (hfolded.subset hf))
    · exact hr
  have hnodup : (chain.drop k).Nodup := h.nodup.sublist (List.drop_sublist ..)
  obtain rfl : rest = chain.drop k :=
    hrest.eq_of_length_le (List.subperm_of_subset hnodup hsubset).length_le
  refine ⟨folded, hfolded, rfl, fun d => ⟨fun hd => ?_, fun hd => ?_⟩⟩
  · exact ⟨List.mem_append_left _ hd, hfolded.subset hd⟩
  · exact (List.mem_append.mp hd.1).resolve_right (hdisjoint d hd.2)

theorem conflictsFrom_iff (h : LinearChain p chain) {k : ℕ} {log : List DeltaEntry}
    (hlog : log.Sublist chain) (hcover : ∀ d ∈ chain.drop k, d ∈ log) :
    conflictsFrom (chain.take k).getLast? log = [] ↔
      ∀ d ∈ log, d ∈ chain.take k → ∀ v, (chain.take k).getLast? = some v →
        isConflict d v = false := by
  obtain ⟨folded, hfolded, rfl, hmem⟩ := h.log_split hlog hcover
  cases hv : (chain.take k).getLast? with
  | none =>
      have htake : chain.take k = [] := List.getLast?_eq_none_iff.mp hv
      obtain rfl : folded = [] := List.sublist_nil.mp (htake ▸ hfolded)
      have hrest : conflictsFrom none (chain.drop k) = [] := by
        have hchain := h.base_eq.drop k
        have hlamport := h.lamport_lt.sublist (List.drop_sublist k chain)
        cases hd : chain.drop k with
        | nil => rfl
        | cons d rest =>
            rw [hd] at hchain hlamport
            exact conflictsFrom_chain hlamport hchain
      simp [hrest]
  | some v =>
      have hle : ∀ d ∈ folded, winnerKey d ≤ winnerKey v := fun d hd =>
        (h.take k).le_getLast hv (hfolded.subset hd)
      have hrest := conflictsFrom_chain (h.isChain_drop hv).1 (h.isChain_drop hv).2
      rw [conflictsFrom_append, keepAll_superseded hle, hrest, List.append_nil,
        conflictsFrom_superseded hle]
      constructor
      · intro hfree d hlogd htaken w hw
        cases hw
        exact hfree d ((hmem d).mpr ⟨hlogd, htaken⟩)
      · intro hfree d hd
        obtain ⟨hlogd, htaken⟩ := (hmem d).mp hd
        exact hfree d hlogd htaken v rfl

end LinearChain

theorem preserveConflictLosers_nil (tree : LocalTree) (state : DeviceState) :
    preserveConflictLosers [] tree state = (⟨tree, state, ⟨[], []⟩⟩, true) :=
  rfl

/-- A linear history is free of conflicts, and no device sets a version of it aside, exactly
when every delta that lingers in the log after being folded into the snapshot has the content of
the snapshot's entry, its base, or was written on top of it. -/
theorem linear_history_conflict_free_iff (p : String) (chain : List DeltaEntry)
    (hchain : LinearChain p chain) (k : ℕ) (snapshot : Manifest) (hsnapshot : snapshot.KeysMatch)
    (hfold : snapshot[p]? = (mergeDeltas ∅ (chain.take k)).manifest[p]?) (log : List DeltaEntry)
    (hlog : (log.filter (·.path = p)).Sublist chain) (hcover : ∀ d ∈ chain.drop k, d ∈ log) :
    ((∀ c ∈ (mergeDeltas snapshot log).conflicts, c.loser.path ≠ p) ∧
      ∀ (stamped : List (RemoteConflict × String)) (tree : LocalTree) (state : DeviceState),
        stamped.map Prod.fst =
          (mergeDeltas snapshot log).conflicts.filter (·.loser.path = p) →
        preserveConflictLosers stamped tree state = (⟨tree, state, ⟨[], []⟩⟩, true)) ↔
    ∀ d ∈ log, d ∈ chain.take k → ∀ v, snapshot[p]? = some v →
      d.plaintextHash = v.plaintextHash ∨ d.baseHash = some v.plaintextHash ∨
        v.baseHash = some d.plaintextHash := by
  rw [(hchain.take k).mergeDeltas_eq_getLast] at hfold
  have hconflicts := mergeDeltas_conflicts_of_path hsnapshot log p
  have hcover' : ∀ d ∈ chain.drop k, d ∈ log.filter (·.path = p) := fun d hd =>
    List.mem_filter.mpr ⟨hcover d hd,
      decide_eq_true (hchain.path_eq d (List.mem_of_mem_drop hd))⟩
  have hiff := hchain.conflictsFrom_iff hlog hcover'
  rw [← hfold, ← hconflicts] at hiff
  have hpath : ∀ d ∈ log, d ∈ chain.take k → d ∈ log.filter (·.path = p) := fun d hd ht =>
    List.mem_filter.mpr ⟨hd, decide_eq_true (hchain.path_eq d (List.mem_of_mem_take ht))⟩
  constructor
  · rintro ⟨hfree, -⟩ d hd ht v hv
    have hnil : (mergeDeltas snapshot log).conflicts.filter (·.loser.path = p) = [] :=
      List.filter_eq_nil_iff.mpr fun c hc => by simpa using hfree c hc
    exact isConflict_eq_false.mp (hiff.mp hnil d (hpath d hd ht) ht v hv)
  · intro hcond
    have hnil := hiff.mpr fun d hd ht v hv =>
      isConflict_eq_false.mpr (hcond d (List.mem_of_mem_filter hd) ht v hv)
    refine ⟨fun c hc => by simpa using List.filter_eq_nil_iff.mp hnil c hc, ?_⟩
    intro stamped tree state hstamped
    rw [hnil, List.map_eq_nil_iff] at hstamped
    rw [hstamped, preserveConflictLosers_nil]

/-- Three versions of one file, by two devices in turn. -/
def threeVersions : List DeltaEntry :=
  [.sample "notes" "laptop" 1 11 none, .sample "notes" "phone" 2 12 (some 11),
    .sample "notes" "phone" 3 13 (some 12)]

theorem threeVersions_linear : LinearChain "notes" threeVersions :=
  ⟨by decide, by decide, by decide⟩

theorem linear_history_conflict_free_iff_threeVersions :
    (mergeDeltas (mergeDeltas ∅ (threeVersions.take 2)).manifest threeVersions).conflicts.filter
      (·.loser.path = "notes") = [] := by
  have h := (linear_history_conflict_free_iff "notes" threeVersions threeVersions_linear 2
    (mergeDeltas ∅ (threeVersions.take 2)).manifest (mergeDeltas_keysMatch .empty _) rfl
    threeVersions (by decide) (by decide)).mpr (by decide)
  exact List.filter_eq_nil_iff.mpr fun c hc => by simpa using h.1 c hc

/-- The laptop wrote the first version and still holds it. All three versions are folded into the
snapshot and, within the grace period, all three are still in the log: the laptop's next pass
finds a conflict and renames its file. -/
theorem linear_history_conflicts_within_grace :
    LinearChain "notes" threeVersions ∧
    (mergeDeltas (mergeDeltas ∅ threeVersions).manifest threeVersions).conflicts =
      [⟨.sample "notes" "phone" 3 13 (some 12), .sample "notes" "laptop" 1 11 none⟩] ∧
    (preserveConflictLosers
      [(⟨.sample "notes" "phone" 3 13 (some 12), .sample "notes" "laptop" 1 11 none⟩, "noon")]
      (.single "notes" ⟨⟨1, 0⟩, 11, true, none⟩)
      { deviceId := "laptop", deviceName := "pc", files := .single "notes" (.synced "notes" 1 11)
        uploads := ∅, lamport := 1, manifestGeneration := 0 }).1.preserved.renamed =
      ["notes (conflicted copy noon from pc)"] :=
  ⟨threeVersions_linear, by decide, by decide +kernel⟩

end FileMirror
