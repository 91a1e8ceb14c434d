import FileMirror.LinearHistory
import FileMirror.Pass

set_option autoImplicit false

namespace FileMirror

open LastWriter

theorem mem_addRelocation {plan : Plan} {relocation : String × DeltaEntry} {path : String} :
    ⟨path, .deleteLocal⟩ ∈ (addRelocation plan relocation).actions ↔
      ⟨path, .deleteLocal⟩ ∈ plan.actions := by
  simp only [addRelocation, List.mem_append, List.mem_map, List.mem_singleton, Action.mk.injEq,
    reduceCtorEq, and_false, or_false]
  constructor
  · rintro ⟨a, ha, heq⟩
    split_ifs at heq with h
    · cases heq
    · rwa [← heq]
  · intro h
    exact ⟨_, h, by simp⟩

theorem mem_foldl_addRelocation {plan : Plan} {relocations : List (String × DeltaEntry)}
    {path : String} : ⟨path, .deleteLocal⟩ ∈ (relocations.foldl addRelocation plan).actions ↔
      ⟨path, .deleteLocal⟩ ∈ plan.actions := by
  induction relocations generalizing plan with
  | nil => rfl
  | cons r relocations ih => rw [List.foldl_cons, ih, mem_addRelocation]

theorem planFrom_deleteLocal {options : PassOptions} {merged : MergeResult}
    {preserved : Preserving} {path : String} :
    ⟨path, .deleteLocal⟩ ∈ (planFrom options merged preserved).plan.actions ↔
      (planPath (scanAllWith options.ignored preserved.state.files preserved.tree).entries
        preserved.state.files merged.manifest
        ⟨dropStale (scanAllWith options.ignored preserved.state.files preserved.tree),
          options.policy, options.hydrate⟩ path).1 = some .deleteLocal := by
  rw [← mem_reconcileWith]
  simp only [planFrom, mem_sortActions, mem_foldl_addRelocation]

theorem planPass_eq_some {options : PassOptions} {utc : ℕ → String} {snapshot : Manifest}
    {deltas : List DeltaEntry} {w t : World} {pass : PassPlan}
    (h : planPass options utc snapshot deltas w = some (pass, t)) :
    ∃ preserved, pass = planFrom options (mergeDeltas snapshot deltas) preserved ∧
      t.device = preserved.state := by
  obtain ⟨preserved, -, rfl, rfl⟩ := planPass_eq_some_iff.mp h
  exact ⟨preserved, rfl, rfl⟩

theorem planPath_converged {entries : List LocalEntry} {baseline : Baseline} {remote : Manifest}
    {view : ResidencyView} {path : String} {hash : ContentHash}
    (hlocal : localHash entries path = some hash) (hremote : remote.liveHash path = some hash) :
    (planPath entries baseline remote view path).1 = none := by
  simp only [planPath, hlocal, hremote, Option.isSome_some, if_true]
  cases baseline.lastSynced path with
  | none => simp [classify, decideAction]
  | some base => by_cases h : hash = base <;> simp [classify, decideAction, h]

/-- A tombstone as `apply` logs it for the base version, and an edit of that version as `apply`
logs it elsewhere: whichever they are read after is older than both. -/
structure DeleteEditRace (base tomb edit : DeltaEntry) (snapshot : Manifest)
    (deltas : List DeltaEntry) : Prop where
  keysMatch : snapshot.KeysMatch
  tomb_built : ∃ clock, tomb = tombstone clock base.path base
  edit_path : edit.path = base.path
  edit_live : edit.deleted = false
  edit_base : edit.baseHash = some base.plaintextHash
  edit_differs : edit.plaintextHash ≠ base.plaintextHash
  tomb_read : tomb ∈ candidates snapshot deltas base.path
  edit_read : edit ∈ candidates snapshot deltas base.path
  others_older : ∀ c ∈ candidates snapshot deltas base.path, c = tomb ∨ c = edit ∨
    (winnerKey c < winnerKey tomb ∧ winnerKey c < winnerKey edit)

theorem isConflict_comm (d e : DeltaEntry) : isConflict d e = isConflict e d := by
  have hcontent : (d.plaintextHash == e.plaintextHash) = (e.plaintextHash == d.plaintextHash) :=
    Bool.beq_comm
  simp only [isConflict, hcontent, Bool.and_right_comm]

theorem mem_conflictsOf {o : Option DeltaEntry} {d : DeltaEntry} {c : RemoteConflict}
    (h : c ∈ conflictsOf o d) : isConflict c.winner c.loser = true ∧
      winnerKey c.loser ≤ winnerKey c.winner ∧ c.winner ∈ d :: o.toList := by
  cases o with
  | none => cases h
  | some e =>
      simp only [conflictsOf] at h
      split_ifs at h with hconflict hwins
      · rw [List.mem_singleton.mp h]
        exact ⟨hconflict, hwins.le, by simp⟩
      · rw [List.mem_singleton.mp h]
        exact ⟨isConflict_comm d e ▸ hconflict, not_lt.mp hwins, by simp⟩
      · cases h

theorem mem_conflictsFrom {o : Option DeltaEntry} {ds : List DeltaEntry} {c : RemoteConflict}
    (h : c ∈ conflictsFrom o ds) : isConflict c.winner c.loser = true ∧
      winnerKey c.loser ≤ winnerKey c.winner ∧ c.winner ∈ o.toList ++ ds := by
  induction ds generalizing o with
  | nil => cases h
  | cons d ds ih =>
      rw [conflictsFrom, List.mem_append] at h
      rcases h with h | h
      · obtain ⟨hconflict, hle, hmem⟩ := mem_conflictsOf h
        refine ⟨hconflict, hle, ?_⟩
        simp only [List.mem_cons, List.mem_append] at hmem ⊢
        tauto
      · obtain ⟨hconflict, hle, hmem⟩ := ih h
        refine ⟨hconflict, hle, ?_⟩
        have hkeep : keep winnerKey o d = d ∨ o = some (keep winnerKey o d) := by
          cases o with
          | none => exact .inl rfl
          | some e =>
              simp only [keep]
              split_ifs
              · exact .inl rfl
              · exact .inr rfl
        simp only [List.mem_append, Option.mem_toList, Option.some.injEq, List.mem_cons] at hmem ⊢
        rcases hmem with hmem | hmem
        · rw [← hmem]
          exact hkeep.elim (fun h => .inr (.inl h)) .inl
        · exact .inr (.inr hmem)

namespace DeleteEditRace

variable {base tomb edit : DeltaEntry} {snapshot : Manifest} {deltas : List DeltaEntry}

theorem tomb_hash (h : DeleteEditRace base tomb edit snapshot deltas) :
    tomb.plaintextHash = base.plaintextHash := by
  obtain ⟨clock, rfl⟩ := h.tomb_built
  rfl

theorem not_conflict (h : DeleteEditRace base tomb edit snapshot deltas) :
    isConflict tomb edit = false :=
  isConflict_eq_false.mpr (.inr (.inr (h.edit_base.trans (congrArg some h.tomb_hash.symm))))

theorem edit_wins (h : DeleteEditRace base tomb edit snapshot deltas)
    (hlt : winnerKey tomb < winnerKey edit) :
    (mergeDeltas snapshot deltas).manifest[base.path]? = some edit := by
  refine (mergeDeltas_eq_max h.keysMatch deltas base.path edit).mpr ⟨h.edit_read, ?_⟩
  intro c hc
  rcases h.others_older c hc with rfl | rfl | ⟨-, hc⟩
  · exact hlt.le
  · exact le_rfl
  · exact hc.le

theorem tomb_wins (h : DeleteEditRace base tomb edit snapshot deltas)
    (hlt : winnerKey edit < winnerKey tomb) :
    (mergeDeltas snapshot deltas).manifest[base.path]? = some tomb := by
  refine (mergeDeltas_eq_max h.keysMatch deltas base.path tomb).mpr ⟨h.tomb_read, ?_⟩
  intro c hc
  rcases h.others_older c hc with rfl | rfl | ⟨hc, -⟩
  · exact le_rfl
  · exact hlt.le
  · exact hc.le

theorem edit_not_loser (h : DeleteEditRace base tomb edit snapshot deltas) :
    ∀ c ∈ (mergeDeltas snapshot deltas).conflicts, c.loser ≠ edit := by
  rintro c hc heq
  have hpath : c ∈ (mergeDeltas snapshot deltas).conflicts.filter (·.loser.path = base.path) :=
    List.mem_filter.mpr ⟨hc, decide_eq_true (heq ▸ h.edit_path)⟩
  rw [mergeDeltas_conflicts_of_path h.keysMatch] at hpath
  obtain ⟨hconflict, hle, hmem⟩ := mem_conflictsFrom hpath
  rw [heq] at hconflict hle
  rcases h.others_older c.winner hmem with hwinner | hwinner | ⟨-, hlt⟩
  · rw [hwinner, h.not_conflict] at hconflict
    cases hconflict
  · rw [hwinner, isConflict_eq_false.mpr (.inl rfl)] at hconflict
    cases hconflict
  · exact hle.not_gt hlt

theorem key_ne (h : DeleteEditRace base tomb edit snapshot deltas) :
    winnerKey edit ≠ winnerKey tomb := by
  intro heq
  have hpath : edit.path = tomb.path := by
    obtain ⟨clock, rfl⟩ := h.tomb_built
    exact h.edit_path
  have hcontent := congrArg DeltaEntry.plaintextHash (winnerKey_separates edit tomb hpath heq)
  exact h.edit_differs (hcontent.trans h.tomb_hash)

end DeleteEditRace

/-- A concurrent edit survives a delete, live or as a reported loser, and its own device never
plans to delete it, exactly when the merge order puts the edit above the tombstone. -/
theorem delete_yields_to_edit_iff (base tomb edit : DeltaEntry) (snapshot : Manifest)
    (deltas : List DeltaEntry) (h : DeleteEditRace base tomb edit snapshot deltas) :
    (((mergeDeltas snapshot deltas).manifest[base.path]? = some edit ∨
        ∃ c ∈ (mergeDeltas snapshot deltas).conflicts, c.loser = edit) ∧
      ∀ (options : PassOptions) (utc : ℕ → String) (w t : World) (pass : PassPlan),
        planPass options utc snapshot deltas w = some (pass, t) →
        (∃ e ∈ pass.scan.entries, e.path = base.path) →
        (∀ e ∈ pass.scan.entries, e.path = base.path → e.hash = edit.plaintextHash) →
        ⟨base.path, .deleteLocal⟩ ∉ pass.plan.actions) ↔
    winnerKey tomb < winnerKey edit := by
  constructor
  · rintro ⟨hsurvives, -⟩
    by_contra hnot
    have hlt : winnerKey edit < winnerKey tomb := lt_of_le_of_ne (not_lt.mp hnot) h.key_ne
    rcases hsurvives with hlive | ⟨c, hc, hloser⟩
    · rw [h.tomb_wins hlt, Option.some.injEq] at hlive
      exact h.key_ne (congrArg winnerKey hlive.symm)
    · exact h.edit_not_loser c hc hloser
  · intro hlt
    have hlive := h.edit_wins hlt
    refine ⟨.inl hlive, fun options utc w t pass hpass hscanned hhash hdelete => ?_⟩
    obtain ⟨preserved, rfl, -⟩ := planPass_eq_some hpass
    have hremote : (mergeDeltas snapshot deltas).manifest.liveHash base.path =
        some edit.plaintextHash := by
      simp [Manifest.liveHash, hlive, h.edit_live]
    have hlocal : localHash (scanAllWith options.ignored preserved.state.files
        preserved.tree).entries base.path = some edit.plaintextHash :=
      localHash_eq_some hscanned hhash
    rw [planFrom_deleteLocal, planPath_converged hlocal hremote] at hdelete
    cases hdelete

/-- Two devices synced version 10 of "f": one deletes it while the other edits it. -/
def raceBase : DeltaEntry := .sample "f" "laptop" 1 10 none

def raceTomb (lamport : ℕ) : DeltaEntry :=
  tombstone ⟨"phone", "phone", lamport, fun _ => 0, fun _ => ""⟩ "f" raceBase

def raceEdit (lamport : ℕ) : DeltaEntry := .sample "f" "laptop" lamport 11 (some 10)

theorem delete_yields_to_later_edit :
    (mergeDeltas ∅ [raceBase, raceTomb 2, raceEdit 3]).manifest["f"]? = some (raceEdit 3) ∨
      ∃ c ∈ (mergeDeltas ∅ [raceBase, raceTomb 2, raceEdit 3]).conflicts, c.loser = raceEdit 3 :=
  ((delete_yields_to_edit_iff raceBase (raceTomb 2) (raceEdit 3) ∅
    [raceBase, raceTomb 2, raceEdit 3]
    { keysMatch := .empty
      tomb_built := ⟨_, rfl⟩
      edit_path := rfl
      edit_live := rfl
      edit_base := rfl
      edit_differs := by decide
      tomb_read := by decide
      edit_read := by decide
      others_older := by decide }).mpr (by decide)).1

/-- At equal lamports the greater device id decides. The deleting phone wins without a conflict,
and the laptop's next pass deletes the edit it has just logged. -/
theorem delete_beats_edit :
    (mergeDeltas ∅ [raceBase, raceTomb 2, raceEdit 2]).manifest["f"]? = some (raceTomb 2) ∧
    (mergeDeltas ∅ [raceBase, raceTomb 2, raceEdit 2]).conflicts = [] ∧
    (planPass ⟨fun _ => false, ⟨[], [], false⟩, []⟩ (fun _ => "") ∅
        [raceBase, raceTomb 2, raceEdit 2]
        { device := { deviceId := "laptop", deviceName := "laptop"
                      files := .single "f" (.synced "f" 1 11), uploads := ∅, lamport := 2
                      manifestGeneration := 0 }
          tree := .single "f" ⟨⟨1, 0⟩, 11, true, none⟩
          log := ∅ }).map (fun pass => pass.1.plan.actions) =
      some [⟨"f", .deleteLocal⟩] := by
  decide +kernel

end FileMirror
