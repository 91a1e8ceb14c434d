import Mathlib.Data.List.Sort
import Mathlib.Data.List.Dedup
import FileMirror.LocalTree

set_option autoImplicit false

namespace FileMirror

inductive Mode where
  | «local»
  | onlineOnly
  | auto
  deriving DecidableEq

/-- A glob pattern; what its compiled matcher accepts is the glob library's business. -/
structure Rule where
  pattern : String
  isMatch : String → Bool
  mode : Mode

structure Policy where
  pins : List Rule
  config : List Rule
  defaultOnlineOnly : Bool

namespace Policy

/-- `max_by_key(|rule| rule.pattern.len())`: the last of the longest. -/
def longest : List Rule → Option Rule
  | [] => none
  | rule :: rules =>
      match longest rules with
      | none => some rule
      | some best =>
          if best.pattern.utf8ByteSize < rule.pattern.utf8ByteSize then some rule else some best

def mode (policy : Policy) (path : String) : Mode :=
  match longest (policy.pins.filter (·.isMatch path)) with
  | some rule => rule.mode
  | none => (policy.config.find? (·.isMatch path)).elim .auto Rule.mode

def arrivesOnlineOnly (policy : Policy) (path : String) : Bool :=
  match policy.mode path with
  | .local => false
  | .onlineOnly => true
  | .auto => policy.defaultOnlineOnly

end Policy

inductive ActionKind where
  | download
  | hydrate
  | relocate
  | upload
  | createPlaceholder
  | updatePlaceholder
  | deleteLocal
  | deleteRemote
  | conflict
  deriving DecidableEq

structure Action where
  path : String
  kind : ActionKind
  deriving DecidableEq

/-- `a.kind.cmp(&b.kind).then_with(|| a.path.cmp(&b.path))` is not greater. -/
def Action.before (a b : Action) : Prop :=
  a.kind.ctorIdx < b.kind.ctorIdx ∨ (a.kind = b.kind ∧ a.path ≤ b.path)

instance (a b : Action) : Decidable (a.before b) :=
  inferInstanceAs (Decidable (_ ∨ _))

structure Plan where
  actions : List Action
  relocations : StringMap DeltaEntry

inductive Change where
  | unchanged
  | created
  | modified
  | deleted
  deriving DecidableEq

def classify : Option ContentHash → Option ContentHash → Change
  | none, none => .unchanged
  | none, some _ => .deleted
  | some _, none => .created
  | some c, some b => if c = b then .unchanged else .modified

structure ResidencyView where
  placeholders : StringMap StubMeta
  policy : Policy
  hydrate : List String

def decideAction (here there : Change) (localHash remoteHash : Option ContentHash) :
    Option ActionKind :=
  match here, there with
  | .unchanged, .unchanged => none
  | .unchanged, .created | .unchanged, .modified => some .download
  | .unchanged, .deleted => some .deleteLocal
  | .created, .unchanged | .modified, .unchanged => some .upload
  | .created, .created | .created, .modified | .modified, .created | .modified, .modified =>
      if localHash = remoteHash then none else some .conflict
  | .created, .deleted | .modified, .deleted | .deleted, .created | .deleted, .modified =>
      some .conflict
  | .deleted, .unchanged => some .deleteRemote
  | .deleted, .deleted => none

def Manifest.liveHash (m : Manifest) (path : String) : Option ContentHash :=
  m[path]?.bind fun e => if e.deleted then none else some e.plaintextHash

def ResidencyView.wantsLocal (view : ResidencyView) (path : String) : Bool :=
  path ∈ view.hydrate || view.policy.mode path = .local

def placeholderAction (path : String) (stub : StubMeta) (record : Option FileRecord)
    (thereChange : Change) (remote : Manifest) (view : ResidencyView) :
    Option ActionKind × Option DeltaEntry :=
  if stub.path ≠ path then
    match remote[stub.path]? with
    | none => (none, none)
    | some source => if source.deleted then (none, none) else (some .relocate, some source)
  else
    let refresh := if view.wantsLocal path then .hydrate else .updatePlaceholder
    let kind : Option ActionKind :=
      match record.bind FileRecord.lastSyncedHash, thereChange with
      | none, .created => some refresh
      | none, _ => none
      | some _, .unchanged =>
          if view.wantsLocal path then some .hydrate
          else if record.any FileRecord.isEvicted then none
          else some .updatePlaceholder
      | some _, .created | some _, .modified => some refresh
      | some _, .deleted => some .deleteLocal
    (kind, none)

/-- `local` collected into a map: of two entries of one path the later one counts. -/
def localHash (entries : List LocalEntry) (path : String) : Option ContentHash :=
  (entries.reverse.find? (·.path = path)).map LocalEntry.hash

/-- The body of `reconcile_with`'s loop for one path. -/
def planPath (entries : List LocalEntry) (baseline : Baseline) (remote : Manifest)
    (view : ResidencyView) (path : String) : Option ActionKind × Option DeltaEntry :=
  let record := baseline[path]?
  let base := baseline.lastSynced path
  let here := localHash entries path
  let there := remote.liveHash path
  let thereChange := classify there base
  if here.isSome then (decideAction (classify here base) thereChange here there, none)
  else
    match view.placeholders[path]? with
    | some stub => placeholderAction path stub record thereChange remote view
    | none =>
        if record.any FileRecord.isEvicted then
          match thereChange with
          | .unchanged => (some .deleteRemote, none)
          | .created | .modified => (some .hydrate, none)
          | .deleted => (some .deleteLocal, none)
        else
          match decideAction (classify none base) thereChange none there with
          | some .download =>
              if view.policy.arrivesOnlineOnly path then (some .createPlaceholder, none)
              else (some .download, none)
          | other => (other, none)

/-- The `BTreeSet` of every path that some side knows. -/
def reconcilePaths (entries : List LocalEntry) (baseline : Baseline) (remote : Manifest)
    (view : ResidencyView) : List String :=
  (entries.map LocalEntry.path ++ baseline.keys ++ remote.keys ++ view.placeholders.keys).dedup
    |>.insertionSort (· ≤ ·)

def sortActions (actions : List Action) : List Action :=
  actions.insertionSort Action.before

def reconcileWith (entries : List LocalEntry) (baseline : Baseline) (remote : Manifest)
    (view : ResidencyView) : Plan :=
  let paths := reconcilePaths entries baseline remote view
  let planned := fun path => planPath entries baseline remote view path
  { actions := sortActions
      (paths.filterMap fun path => (planned path).1.map fun kind => ⟨path, kind⟩)
    relocations := paths.foldl
      (fun m path => (planned path).2.elim m fun source => m.insert path source) ∅ }

/-- `reconcile`: no placeholders and the default policy. -/
def reconcile (entries : List LocalEntry) (baseline : Baseline) (remote : Manifest) : Plan :=
  reconcileWith entries baseline remote ⟨∅, ⟨[], [], false⟩, []⟩

section Reconcile

variable {entries : List LocalEntry} {baseline : Baseline} {remote : Manifest}
  {view : ResidencyView} {path : String}

theorem localHash_eq_none : localHash entries path = none ↔ ∀ e ∈ entries, e.path ≠ path := by
  simp [localHash]

theorem localHash_eq_some {hash : ContentHash} (hmem : ∃ e ∈ entries, e.path = path)
    (hall : ∀ e ∈ entries, e.path = path → e.hash = hash) :
    localHash entries path = some hash := by
  unfold localHash
  cases hfind : entries.reverse.find? (·.path = path) with
  | none =>
      obtain ⟨e, he, hpath⟩ := hmem
      simp only [List.find?_eq_none, List.mem_reverse, decide_eq_true_eq] at hfind
      exact absurd hpath (hfind e he)
  | some e =>
      have hpath : e.path = path := by simpa using List.find?_some hfind
      have he : e ∈ entries := List.mem_reverse.mp (List.mem_of_find?_eq_some hfind)
      rw [Option.map_some, hall e he hpath]

theorem mem_reconcilePaths : path ∈ reconcilePaths entries baseline remote view ↔
    (∃ e ∈ entries, e.path = path) ∨ path ∈ baseline ∨ path ∈ remote ∨
      path ∈ view.placeholders := by
  simp [reconcilePaths, List.mem_insertionSort]

theorem planPath_unknown (h : path ∉ reconcilePaths entries baseline remote view) :
    planPath entries baseline remote view path = (none, none) := by
  simp only [mem_reconcilePaths, not_or, not_exists, not_and] at h
  obtain ⟨hentries, hbaseline, hremote, hplaceholders⟩ := h
  have hlocal : localHash entries path = none := localHash_eq_none.mpr hentries
  have hrecord : baseline[path]? = none := Std.ExtTreeMap.getElem?_eq_none hbaseline
  have hthere : remote[path]? = none := Std.ExtTreeMap.getElem?_eq_none hremote
  have hstub : view.placeholders[path]? = none := Std.ExtTreeMap.getElem?_eq_none hplaceholders
  simp [planPath, hlocal, hrecord, hthere, hstub, Manifest.liveHash, Baseline.lastSynced, classify,
    decideAction]

theorem mem_sortActions {actions : List Action} {a : Action} :
    a ∈ sortActions actions ↔ a ∈ actions :=
  List.mem_insertionSort ..

theorem mem_reconcileWith {kind : ActionKind} :
    ⟨path, kind⟩ ∈ (reconcileWith entries baseline remote view).actions ↔
      (planPath entries baseline remote view path).1 = some kind := by
  simp only [reconcileWith, mem_sortActions, List.mem_filterMap, Option.map_eq_some_iff,
    Action.mk.injEq]
  constructor
  · rintro ⟨q, -, k, hk, rfl, rfl⟩
    exact hk
  · intro hk
    refine ⟨path, ?_, kind, hk, rfl, rfl⟩
    by_contra hunknown
    rw [planPath_unknown hunknown] at hk
    cases hk

end Reconcile

end FileMirror
