import FileMirror.Apply
import FileMirror.Packs
import Mathlib.Data.List.Sort
import Mathlib.Data.Finset.Card

set_option autoImplicit false

/-!
# Which snapshots are kept

`prune.rs`, `select`: each rule goes through a group from the newest snapshot on, and keeps the first
of each bucket until it has kept as many as it counts. What the calendar makes of an instant in the
caller's time zone is a parameter.
-/

namespace FileMirror.Retention

structure Snapshot where
  id : ObjectId
  time : ℤ
  hostname : String
  paths : List String
  deriving DecidableEq

structure KeepPolicy where
  last : ℕ
  hourly : ℕ
  daily : ℕ
  weekly : ℕ
  monthly : ℕ
  yearly : ℕ
  deriving DecidableEq

def KeepPolicy.isEmpty (policy : KeepPolicy) : Bool := policy = ⟨0, 0, 0, 0, 0, 0⟩

inductive Rule where
  | last
  | hourly
  | daily
  | weekly
  | monthly
  | yearly
  deriving DecidableEq

def Rule.all : List Rule := [.last, .hourly, .daily, .weekly, .monthly, .yearly]

def Rule.name : Rule → String
  | .last => "last"
  | .hourly => "hourly"
  | .daily => "daily"
  | .weekly => "weekly"
  | .monthly => "monthly"
  | .yearly => "yearly"

def KeepPolicy.count (policy : KeepPolicy) : Rule → ℕ
  | .last => policy.last
  | .hourly => policy.hourly
  | .daily => policy.daily
  | .weekly => policy.weekly
  | .monthly => policy.monthly
  | .yearly => policy.yearly

/-- An instant in a time zone: `format`, and the ISO week with its year. -/
structure TimeZone where
  format : String → ℤ → String
  isoWeek : ℤ → ℤ × ℕ

def bucket (tz : TimeZone) : Rule → Snapshot → String
  | .last, s => hashText s.id
  | .hourly, s => tz.format "%Y-%m-%d %H" s.time
  | .daily, s => tz.format "%Y-%m-%d" s.time
  | .weekly, s => toString (tz.isoWeek s.time).1 ++ "-" ++ toString (tz.isoWeek s.time).2
  | .monthly, s => tz.format "%Y-%m" s.time
  | .yearly, s => tz.format "%Y" s.time

structure Selection where
  keep : List (Snapshot × List String)
  forget : List Snapshot

/-- `b.time.cmp(&a.time).then(a.id.cmp(&b.id))`. -/
def Before (a b : Snapshot) : Prop := b.time < a.time ∨ a.time = b.time ∧ a.id ≤ b.id

instance : DecidableRel Before := fun a b =>
  inferInstanceAs (Decidable (b.time < a.time ∨ a.time = b.time ∧ a.id ≤ b.id))

def groupKey (s : Snapshot) : String × List String :=
  (s.hostname, s.paths.insertionSort (· ≤ ·))

def groups (snapshots : List Snapshot) : List (List Snapshot) :=
  (snapshots.map groupKey).dedup.map fun key => snapshots.filter fun s => groupKey s = key

def keepNewest (key : Snapshot → String) (count : ℕ) : Finset String → List Snapshot → List Snapshot
  | _, [] => []
  | seen, s :: group =>
      if seen.card = count then []
      else if key s ∈ seen then keepNewest key count seen group
      else s :: keepNewest key count (insert (key s) seen) group

/-- `reasons.entry(id).or_default().push(name)`. -/
def note (reasons : IdMap (List String)) (entry : ObjectId × String) : IdMap (List String) :=
  reasons.insert entry.1 (reasons[entry.1]?.getD [] ++ [entry.2])

def notes (policy : KeepPolicy) (tz : TimeZone) (snapshots : List Snapshot) :
    List (ObjectId × String) :=
  (groups snapshots).flatMap fun group => Rule.all.flatMap fun rule =>
    (keepNewest (bucket tz rule) (policy.count rule) ∅ (group.insertionSort Before)).map fun s =>
      (s.id, rule.name)

def assign : List Snapshot → IdMap (List String) → Selection
  | [], _ => ⟨[], []⟩
  | s :: ordered, reasons =>
      match reasons[s.id]? with
      | some why =>
          let selection := assign ordered (reasons.erase s.id)
          { selection with keep := (s, why) :: selection.keep }
      | none =>
          let selection := assign ordered reasons
          { selection with forget := s :: selection.forget }

def select (snapshots : List Snapshot) (policy : KeepPolicy) (tz : TimeZone) :
    Except BackupError Selection :=
  if policy.isEmpty then
    .error (.invalid "no keep rules given; refusing to forget every snapshot")
  else
    .ok (assign (snapshots.insertionSort Before) ((notes policy tz snapshots).foldl note ∅))

section Order

variable {s t : Snapshot} {group : List Snapshot}

instance : Std.Total Before where
  total a b := by
    unfold Before
    rcases lt_trichotomy a.time b.time with h | h | h
    · exact .inr (.inl h)
    · rcases le_total a.id b.id with hid | hid
      · exact .inl (.inr ⟨h, hid⟩)
      · exact .inr (.inr ⟨h.symm, hid⟩)
    · exact .inl (.inl h)

instance : IsTrans Snapshot Before where
  trans a b c hab hbc := by
    unfold Before at *
    rcases hab with hab | ⟨hab, hid⟩
    · rcases hbc with hbc | ⟨hbc, _⟩
      · exact .inl (hbc.trans hab)
      · exact .inl (hbc ▸ hab)
    · rcases hbc with hbc | ⟨hbc, hid'⟩
      · exact .inl (hab ▸ hbc)
      · exact .inr ⟨hab.trans hbc, hid.trans hid'⟩

/-- The snapshot is the newer one; of two of one instant, the one with the smaller id. -/
def Newer (a b : Snapshot) : Prop := b.time < a.time ∨ a.time = b.time ∧ a.id < b.id

instance : DecidableRel Newer := fun a b =>
  inferInstanceAs (Decidable (b.time < a.time ∨ a.time = b.time ∧ a.id < b.id))

theorem Newer.asymm (h : Newer s t) : ¬ Newer t s := by
  unfold Newer at *
  rcases h with h | ⟨h, hid⟩
  · rintro (h' | ⟨h', _⟩)
    · omega
    · omega
  · rintro (h' | ⟨_, hid'⟩)
    · omega
    · exact lt_asymm hid hid'

theorem Newer.irrefl (s : Snapshot) : ¬ Newer s s := fun h => h.asymm h

theorem newer_of_before (h : Before s t) (hid : s.id ≠ t.id) : Newer s t := by
  unfold Before at h
  unfold Newer
  rcases h with h | ⟨h, hle⟩
  · exact .inl h
  · exact .inr ⟨h, lt_of_le_of_ne hle hid⟩

theorem pairwise_newer (hids : (group.map Snapshot.id).Nodup) :
    (group.insertionSort Before).Pairwise Newer := by
  have hperm := List.perm_insertionSort Before group
  have hdistinct : (group.insertionSort Before).Pairwise fun a b => a.id ≠ b.id :=
    List.pairwise_map.mp ((hperm.map Snapshot.id).nodup_iff.mpr hids)
  exact (List.pairwise_insertionSort Before group).imp₂ (fun _ _ => newer_of_before) hdistinct

theorem insertionSort_perm {others : List Snapshot} (hids : (group.map Snapshot.id).Nodup)
    (h : group.Perm others) : group.insertionSort Before = others.insertionSort Before := by
  have hids' := (h.map Snapshot.id).nodup_iff.mp hids
  have hperm : (group.insertionSort Before).Perm (others.insertionSort Before) :=
    (List.perm_insertionSort Before group).trans (h.trans (List.perm_insertionSort Before others).symm)
  exact hperm.eq_of_pairwise (fun a b _ _ hab hba => absurd hba hab.asymm) (pairwise_newer hids)
    (pairwise_newer hids')

end Order

section Loop

variable {key : Snapshot → String} {count : ℕ} {seen : Finset String} {s : Snapshot}
  {group : List Snapshot}

theorem keepNewest_sublist : (keepNewest key count seen group).Sublist group := by
  induction group generalizing seen with
  | nil => exact .slnil
  | cons t group ih =>
      unfold keepNewest
      split_ifs
      · exact List.nil_sublist _
      · exact ih.cons t
      · exact ih.cons_cons t

theorem mem_keepNewest (hseen : seen.card ≤ count) :
    s ∈ keepNewest key count seen group ↔ ∃ front rest, group = front ++ s :: rest ∧ key s ∉ seen ∧
      (∀ t ∈ front, key t ≠ key s) ∧ (seen ∪ (front.map key).toFinset).card < count := by
  induction group generalizing seen with
  | nil =>
      apply iff_of_false List.not_mem_nil
      rintro ⟨front, rest, hgroup, _⟩
      cases front <;> cases hgroup
  | cons t group ih =>
      unfold keepNewest
      by_cases hfull : seen.card = count
      · rw [if_pos hfull]
        apply iff_of_false List.not_mem_nil
        rintro ⟨front, _, _, _, _, hcount⟩
        have hsub : seen.card ≤ (seen ∪ (front.map key).toFinset).card :=
          Finset.card_le_card Finset.subset_union_left
        omega
      rw [if_neg hfull]
      by_cases hold : key t ∈ seen
      · rw [if_pos hold, ih hseen]
        constructor
        · rintro ⟨front, rest, rfl, hnew, hfirst, hcount⟩
          refine ⟨t :: front, rest, rfl, hnew, ?_, ?_⟩
          · rw [List.forall_mem_cons]
            exact ⟨fun hsame => hnew (hsame ▸ hold), hfirst⟩
          · rw [List.map_cons, List.toFinset_cons, Finset.union_insert,
              Finset.insert_eq_of_mem (Finset.mem_union_left _ hold)]
            exact hcount
        · rintro ⟨front, rest, hgroup, hnew, hfirst, hcount⟩
          cases front with
          | nil =>
              cases hgroup
              exact absurd hold hnew
          | cons t' front =>
              cases hgroup
              rw [List.map_cons, List.toFinset_cons, Finset.union_insert,
                Finset.insert_eq_of_mem (Finset.mem_union_left _ hold)] at hcount
              exact ⟨front, rest, rfl, hnew, (List.forall_mem_cons.mp hfirst).2, hcount⟩
      · have hcard : (insert (key t) seen).card ≤ count := by
          rw [Finset.card_insert_of_notMem hold]
          omega
        rw [if_neg hold, List.mem_cons, ih hcard]
        constructor
        · rintro (rfl | ⟨front, rest, rfl, hnew, hfirst, hcount⟩)
          · refine ⟨[], group, rfl, hold, fun t ht => absurd ht List.not_mem_nil, ?_⟩
            rw [List.map_nil, List.toFinset_nil, Finset.union_empty]
            omega
          · rw [Finset.mem_insert, not_or] at hnew
            refine ⟨t :: front, rest, rfl, hnew.2, ?_, ?_⟩
            · rw [List.forall_mem_cons]
              exact ⟨fun hsame => hnew.1 hsame.symm, hfirst⟩
            · rw [List.map_cons, List.toFinset_cons, Finset.union_insert, ← Finset.insert_union]
              exact hcount
        · rintro ⟨front, rest, hgroup, hnew, hfirst, hcount⟩
          cases front with
          | nil =>
              cases hgroup
              exact .inl rfl
          | cons t' front =>
              cases hgroup
              obtain ⟨hne, hfirst⟩ := List.forall_mem_cons.mp hfirst
              refine .inr ⟨front, rest, rfl, ?_, hfirst, ?_⟩
              · rw [Finset.mem_insert, not_or]
                exact ⟨fun hsame => hne hsame.symm, hnew⟩
              · rw [Finset.insert_union, ← Finset.union_insert, ← List.toFinset_cons, ← List.map_cons]
                exact hcount

theorem filter_newer {front rest : List Snapshot} (hsorted : (front ++ s :: rest).Pairwise Newer) :
    (front ++ s :: rest).filter (fun t => Newer t s) = front := by
  obtain ⟨_, hrest, hacross⟩ := List.pairwise_append.mp hsorted
  have holder := (List.pairwise_cons.mp hrest).1
  have hkept : front.filter (fun t => Newer t s) = front := by
    rw [List.filter_eq_self]
    exact fun t ht => decide_eq_true (hacross t ht s List.mem_cons_self)
  have hdropped : (s :: rest).filter (fun t => Newer t s) = [] := by
    rw [List.filter_eq_nil_iff]
    intro t ht
    rw [decide_eq_true_iff]
    obtain rfl | ht := List.mem_cons.mp ht
    · exact Newer.irrefl t
    · exact (holder t ht).asymm
  rw [List.filter_append, hkept, hdropped, List.append_nil]

theorem mem_keepNewest_iff (hsorted : group.Pairwise Newer) :
    s ∈ keepNewest key count ∅ group ↔ s ∈ group ∧ (∀ t ∈ group, Newer t s → key t ≠ key s) ∧
      ((group.filter fun t => Newer t s).map key).toFinset.card < count := by
  rw [mem_keepNewest (by rw [Finset.card_empty]; exact Nat.zero_le _)]
  constructor
  · rintro ⟨front, rest, rfl, _, hfirst, hcount⟩
    have hfront := filter_newer hsorted
    rw [Finset.empty_union] at hcount
    refine ⟨List.mem_append_right _ List.mem_cons_self, fun t ht hnewer => hfirst t ?_,
      hfront.symm ▸ hcount⟩
    rw [← hfront]
    exact List.mem_filter.mpr ⟨ht, decide_eq_true hnewer⟩
  · rintro ⟨hmem, hfirst, hcount⟩
    obtain ⟨front, rest, rfl⟩ := List.append_of_mem hmem
    have hfront := filter_newer hsorted
    rw [hfront] at hcount
    refine ⟨front, rest, rfl, Finset.notMem_empty _, fun t ht => ?_, by rwa [Finset.empty_union]⟩
    rw [← hfront, List.mem_filter] at ht
    exact hfirst t ht.1 (of_decide_eq_true ht.2)

end Loop

section Reasons

variable {policy : KeepPolicy} {tz : TimeZone} {snapshots others : List Snapshot} {s : Snapshot}

def groupOf (snapshots : List Snapshot) (s : Snapshot) : List Snapshot :=
  (snapshots.filter fun t => groupKey t = groupKey s).insertionSort Before

def why (policy : KeepPolicy) (tz : TimeZone) (snapshots : List Snapshot) (s : Snapshot) :
    List String :=
  (Rule.all.filter fun rule =>
    s ∈ keepNewest (bucket tz rule) (policy.count rule) ∅ (groupOf snapshots s)).map Rule.name

theorem foldl_note (entries : List (ObjectId × String)) (m : IdMap (List String)) (id : ObjectId) :
    (entries.foldl note m)[id]? =
      if entries.filter (fun e => e.1 = id) = [] then m[id]?
      else some (m[id]?.getD [] ++ (entries.filter fun e => e.1 = id).map Prod.snd) := by
  induction entries generalizing m with
  | nil => rfl
  | cons entry entries ih =>
      rw [List.foldl_cons, ih]
      by_cases hid : entry.1 = id
      · have hnoted : (note m entry)[id]? = some (m[id]?.getD [] ++ [entry.2]) := by
          unfold note
          rw [IdMap.getElem?_insert, if_pos hid, hid]
        have hkept : (entry :: entries).filter (fun e => e.1 = id) =
            entry :: entries.filter fun e => e.1 = id :=
          List.filter_cons_of_pos (decide_eq_true hid)
        rw [hkept, if_neg (List.cons_ne_nil _ _), hnoted, Option.getD_some, List.map_cons,
          List.append_assoc, List.singleton_append]
        split_ifs with hnone
        · rw [hnone]
          rfl
        · rfl
      · have hother : (note m entry)[id]? = m[id]? := by
          unfold note
          rw [IdMap.getElem?_insert, if_neg hid]
        have hdropped : (entry :: entries).filter (fun e => e.1 = id) =
            entries.filter fun e => e.1 = id :=
          List.filter_cons_of_neg (by simpa using hid)
        rw [hdropped, hother]

theorem flatMap_eq_of_unique {α β : Type} {f : α → List β} {l : List α} {a : α} (hnodup : l.Nodup)
    (hmem : a ∈ l) (h : ∀ b ∈ l, b ≠ a → f b = []) : l.flatMap f = f a := by
  obtain ⟨front, rest, rfl⟩ := List.append_of_mem hmem
  obtain ⟨_, hrest, hacross⟩ := List.nodup_append.mp hnodup
  have hnil : ∀ part : List α, (∀ b ∈ part, f b = []) → part.flatMap f = [] := by
    intro part hpart
    rw [List.flatMap_eq_nil_iff]
    exact hpart
  have hfront := hnil front fun b hb => h b (List.mem_append_left _ hb)
    fun hsame => hacross b hb a List.mem_cons_self hsame
  have hafter := hnil rest fun b hb => h b (List.mem_append_right _ (List.mem_cons_of_mem _ hb))
    fun hsame => (List.nodup_cons.mp hrest).1 (hsame ▸ hb)
  rw [List.flatMap_append, List.flatMap_cons, hfront, hafter, List.append_nil, List.nil_append]

theorem eq_of_id (hids : (snapshots.map Snapshot.id).Nodup) {t : Snapshot} (hs : s ∈ snapshots)
    (ht : t ∈ snapshots) (hid : t.id = s.id) : t = s :=
  List.inj_on_of_nodup_map hids ht hs hid

theorem filter_id {kept : List Snapshot} (hids : (snapshots.map Snapshot.id).Nodup)
    (hs : s ∈ snapshots) (hkept : ∀ t ∈ kept, t ∈ snapshots) (hnodup : kept.Nodup) :
    kept.filter (fun t => t.id = s.id) = if s ∈ kept then [s] else [] := by
  have hsame : kept.filter (fun t => t.id = s.id) = kept.filter fun t => t = s := by
    apply List.filter_congr
    intro t ht
    rw [decide_eq_decide]
    exact ⟨eq_of_id hids hs (hkept t ht), congrArg Snapshot.id⟩
  rw [hsame, List.filter_eq]
  split_ifs with hmem
  · rw [List.count_eq_one_of_mem hnodup hmem, List.replicate_one]
  · rw [List.count_eq_zero_of_not_mem hmem, List.replicate_zero]

theorem groupOf_sublist (hids : (snapshots.map Snapshot.id).Nodup) :
    ((snapshots.filter fun t => groupKey t = groupKey s).map Snapshot.id).Nodup :=
  hids.sublist (List.filter_sublist.map _)

theorem mem_groupOf {t : Snapshot} :
    t ∈ groupOf snapshots s ↔ t ∈ snapshots ∧ groupKey t = groupKey s := by
  rw [groupOf, List.mem_insertionSort, List.mem_filter, decide_eq_true_iff]

theorem notes_filter (hids : (snapshots.map Snapshot.id).Nodup) (hs : s ∈ snapshots) :
    (notes policy tz snapshots).filter (fun e => e.1 = s.id) =
      (why policy tz snapshots s).map fun name => (s.id, name) := by
  have hone : ∀ group : List Snapshot, (∀ t ∈ group, t ∈ snapshots) → group.Nodup → ∀ rule,
      ((keepNewest (bucket tz rule) (policy.count rule) ∅ group).map fun t =>
          (t.id, rule.name)).filter (fun e => e.1 = s.id) =
        if s ∈ keepNewest (bucket tz rule) (policy.count rule) ∅ group then [(s.id, rule.name)]
        else [] := by
    intro group hgroup hnodup rule
    have hsub : (keepNewest (bucket tz rule) (policy.count rule) ∅ group).Sublist group :=
      keepNewest_sublist
    have hfilter := filter_id hids hs (fun t ht => hgroup t (hsub.subset ht)) (hnodup.sublist hsub)
    rw [List.filter_map]
    change (List.filter (fun t : Snapshot => t.id = s.id) _).map _ = _
    rw [hfilter]
    split_ifs
    · rfl
    · rfl
  have hsnapshots : snapshots.Nodup := List.Nodup.of_map _ hids
  unfold notes groups
  rw [List.flatMap_map, List.filter_flatMap]
  have hkey : groupKey s ∈ (snapshots.map groupKey).dedup :=
    List.mem_dedup.mpr (List.mem_map_of_mem hs)
  rw [flatMap_eq_of_unique (List.nodup_dedup _) hkey]
  · rw [List.filter_flatMap]
    change Rule.all.flatMap (fun rule => List.filter (fun e => e.1 = s.id)
      ((keepNewest (bucket tz rule) (policy.count rule) ∅ (groupOf snapshots s)).map fun t =>
        (t.id, rule.name))) = _
    have hnodup : (groupOf snapshots s).Nodup :=
      (List.perm_insertionSort Before _).nodup_iff.mpr (hsnapshots.filter _)
    simp only [hone (groupOf snapshots s) (fun t ht => (mem_groupOf.mp ht).1) hnodup]
    unfold why
    generalize Rule.all = rules
    induction rules with
    | nil => rfl
    | cons rule rules ih =>
        rw [List.flatMap_cons, ih, List.filter_cons]
        split_ifs <;> simp_all
  · intro key _ hother
    rw [List.filter_flatMap, List.flatMap_eq_nil_iff]
    intro rule _
    rw [hone]
    · rw [if_neg]
      intro hmem
      have hgroup := keepNewest_sublist.subset hmem
      rw [List.mem_insertionSort, List.mem_filter, decide_eq_true_iff] at hgroup
      exact hother hgroup.2.symm
    · intro t ht
      exact (List.mem_filter.mp ((List.mem_insertionSort Before).mp ht)).1
    · exact (List.perm_insertionSort Before _).nodup_iff.mpr (hsnapshots.filter _)

theorem reasons_of (hids : (snapshots.map Snapshot.id).Nodup) (hs : s ∈ snapshots) :
    ((notes policy tz snapshots).foldl note ∅)[s.id]? =
      if why policy tz snapshots s = [] then none else some (why policy tz snapshots s) := by
  have hnotes : (notes policy tz snapshots).filter (fun e => e.1 = s.id) =
      (why policy tz snapshots s).map fun name => (s.id, name) := notes_filter hids hs
  have hempty : (∅ : IdMap (List String))[s.id]? = none := Std.ExtTreeMap.getElem?_empty
  have hnames : ((why policy tz snapshots s).map fun name => (s.id, name)).map Prod.snd =
      why policy tz snapshots s := by
    rw [List.map_map]
    exact List.map_id _
  rw [foldl_note, hnotes, hempty, hnames, Option.getD_none, List.nil_append]
  simp only [List.map_eq_nil_iff]

theorem assign_eq {ordered : List Snapshot} (reasons : IdMap (List String))
    (hids : (ordered.map Snapshot.id).Nodup) :
    assign ordered reasons = ⟨ordered.filterMap fun s => reasons[s.id]?.map fun why => (s, why),
      ordered.filter fun s => reasons[s.id]? = none⟩ := by
  induction ordered generalizing reasons with
  | nil => rfl
  | cons s ordered ih =>
      rw [List.map_cons, List.nodup_cons] at hids
      unfold assign
      obtain hnone | ⟨names, hsome⟩ := Option.eq_none_or_eq_some (reasons[s.id]?)
      · have hforget : (s :: ordered).filter (fun t => reasons[t.id]? = none) =
            s :: ordered.filter fun t => reasons[t.id]? = none :=
          List.filter_cons_of_pos (decide_eq_true hnone)
        rw [hnone, ih reasons hids.2, hforget, List.filterMap_cons_none (by rw [hnone]; rfl)]
      · have hrest : ∀ t ∈ ordered, (reasons.erase s.id)[t.id]? = reasons[t.id]? := by
          intro t ht
          have hne : s.id ≠ t.id := fun hsame => hids.1 (hsame ▸ List.mem_map_of_mem ht)
          rw [Std.ExtTreeMap.getElem?_erase, if_neg (by simpa using hne)]
        have hkeep : ordered.filterMap (fun t => (reasons.erase s.id)[t.id]?.map fun why => (t, why)) =
            ordered.filterMap fun t => reasons[t.id]?.map fun why => (t, why) :=
          List.filterMap_congr fun t ht => by rw [hrest t ht]
        have hforget : ordered.filter (fun t => (reasons.erase s.id)[t.id]? = none) =
            (s :: ordered).filter fun t => reasons[t.id]? = none := by
          rw [List.filter_cons_of_neg (by simp [hsome])]
          exact List.filter_congr fun t ht => by rw [hrest t ht]
        rw [hsome, ih _ hids.2, hkeep, hforget, List.filterMap_cons_some (by rw [hsome]; rfl)]

/-- What `select` returns. -/
def selection (policy : KeepPolicy) (tz : TimeZone) (snapshots : List Snapshot) : Selection where
  keep := ((snapshots.insertionSort Before).filter fun s => why policy tz snapshots s ≠ []).map
    fun s => (s, why policy tz snapshots s)
  forget := (snapshots.insertionSort Before).filter fun s => why policy tz snapshots s = []

theorem select_eq (hids : (snapshots.map Snapshot.id).Nodup) (hpolicy : policy.isEmpty = false) :
    select snapshots policy tz = .ok (selection policy tz snapshots) := by
  have hperm := List.perm_insertionSort Before snapshots
  have hordered : ((snapshots.insertionSort Before).map Snapshot.id).Nodup :=
    (hperm.map Snapshot.id).nodup_iff.mpr hids
  have hreasons : ∀ s ∈ snapshots.insertionSort Before,
      ((notes policy tz snapshots).foldl note ∅)[s.id]? =
        if why policy tz snapshots s = [] then none else some (why policy tz snapshots s) :=
    fun s hs => reasons_of hids ((List.mem_insertionSort Before).mp hs)
  unfold select
  rw [hpolicy, if_neg Bool.false_ne_true, assign_eq _ hordered]
  unfold selection
  congr 2
  · rw [← List.filterMap_eq_map', List.filterMap_filter]
    apply List.filterMap_congr
    intro s hs
    rw [hreasons s hs]
    split_ifs <;> simp_all
  · apply List.filter_congr
    intro s hs
    rw [hreasons s hs]
    split_ifs <;> simp_all

end Reasons

section Rules

variable {policy more : KeepPolicy} {tz : TimeZone} {snapshots others : List Snapshot}
  {s t : Snapshot}

/-- The same host and the same paths, each as often, in any order. -/
def SameGroup (s t : Snapshot) : Prop := t.hostname = s.hostname ∧ t.paths.Perm s.paths

instance : DecidableRel SameGroup := fun s t =>
  inferInstanceAs (Decidable (t.hostname = s.hostname ∧ t.paths.Perm s.paths))

def newer (snapshots : List Snapshot) (s : Snapshot) : List Snapshot :=
  snapshots.filter fun t => SameGroup s t ∧ Newer t s

/-- The snapshot is the newest of its bucket, and fewer buckets than the rule counts have a newer
one. -/
def FirstOfFew (key : Snapshot → String) (count : ℕ) (newer : List Snapshot) (s : Snapshot) : Prop :=
  (∀ t ∈ newer, key t ≠ key s) ∧ (newer.map key).toFinset.card < count

def KeptBy (policy : KeepPolicy) (tz : TimeZone) (snapshots : List Snapshot) (s : Snapshot)
    (rule : Rule) : Prop :=
  FirstOfFew (bucket tz rule) (policy.count rule) (newer snapshots s) s

theorem groupKey_eq_iff : groupKey t = groupKey s ↔ SameGroup s t := by
  unfold groupKey SameGroup
  rw [Prod.mk.injEq]
  have hsorted (l : List String) : (l.insertionSort (· ≤ ·)).Pairwise (· ≤ ·) :=
    List.pairwise_insertionSort (· ≤ ·) l
  constructor
  · rintro ⟨hhost, hpaths⟩
    have hleft := List.perm_insertionSort (· ≤ ·) t.paths
    rw [hpaths] at hleft
    exact ⟨hhost, hleft.symm.trans (List.perm_insertionSort (· ≤ ·) s.paths)⟩
  · rintro ⟨hhost, hpaths⟩
    have hperm : (t.paths.insertionSort (· ≤ ·)).Perm (s.paths.insertionSort (· ≤ ·)) :=
      (List.perm_insertionSort _ _).trans (hpaths.trans (List.perm_insertionSort _ _).symm)
    exact ⟨hhost, hperm.eq_of_pairwise (fun a b _ _ => le_antisymm) (hsorted _) (hsorted _)⟩

theorem filter_groupOf_perm :
    ((groupOf snapshots s).filter fun t => Newer t s).Perm (newer snapshots s) := by
  have hperm : (groupOf snapshots s).Perm (snapshots.filter fun t => groupKey t = groupKey s) :=
    List.perm_insertionSort Before _
  have hfilter := hperm.filter fun t => Newer t s
  rw [List.filter_filter] at hfilter
  have hsame : snapshots.filter (fun t => decide (Newer t s) && decide (groupKey t = groupKey s)) =
      newer snapshots s := by
    apply List.filter_congr
    intro t _
    rw [Bool.and_comm, ← Bool.decide_and, decide_eq_decide, groupKey_eq_iff]
  rwa [hsame] at hfilter

theorem mem_newer : t ∈ newer snapshots s ↔ t ∈ snapshots ∧ SameGroup s t ∧ Newer t s := by
  rw [newer, List.mem_filter, decide_eq_true_iff]

theorem mem_keepNewest_groupOf (hids : (snapshots.map Snapshot.id).Nodup) (hs : s ∈ snapshots)
    (rule : Rule) : s ∈ keepNewest (bucket tz rule) (policy.count rule) ∅ (groupOf snapshots s) ↔
      KeptBy policy tz snapshots s rule := by
  have hperm : ((groupOf snapshots s).filter fun t => Newer t s).Perm (newer snapshots s) :=
    filter_groupOf_perm
  have hbuckets := List.toFinset_eq_of_perm _ _ (hperm.map (bucket tz rule))
  have hsorted : (groupOf snapshots s).Pairwise Newer := pairwise_newer (groupOf_sublist hids)
  rw [mem_keepNewest_iff hsorted, hbuckets]
  unfold KeptBy FirstOfFew
  constructor
  · rintro ⟨_, hfirst, hcount⟩
    refine ⟨fun t ht => ?_, hcount⟩
    have hmem := List.mem_filter.mp (hperm.mem_iff.mpr ht)
    exact hfirst t hmem.1 (of_decide_eq_true hmem.2)
  · rintro ⟨hfirst, hcount⟩
    refine ⟨mem_groupOf.mpr ⟨hs, rfl⟩, fun t ht hnewer => ?_, hcount⟩
    exact hfirst t (hperm.mem_iff.mp (List.mem_filter.mpr ⟨ht, decide_eq_true hnewer⟩))

theorem why_ne_nil_iff (hids : (snapshots.map Snapshot.id).Nodup) (hs : s ∈ snapshots) :
    why policy tz snapshots s ≠ [] ↔ ∃ rule, KeptBy policy tz snapshots s rule := by
  unfold why
  rw [ne_eq, List.map_eq_nil_iff, List.filter_eq_nil_iff]
  simp only [not_forall, not_not]
  constructor
  · rintro ⟨rule, _, hkept⟩
    exact ⟨rule, (mem_keepNewest_groupOf hids hs rule).mp (of_decide_eq_true hkept)⟩
  · rintro ⟨rule, hkept⟩
    have hrule : rule ∈ Rule.all := by cases rule <;> decide
    exact ⟨rule, hrule, decide_eq_true ((mem_keepNewest_groupOf hids hs rule).mpr hkept)⟩

theorem mem_keep_iff (hids : (snapshots.map Snapshot.id).Nodup) :
    s ∈ (selection policy tz snapshots).keep.map Prod.fst ↔
      s ∈ snapshots ∧ ∃ rule, KeptBy policy tz snapshots s rule := by
  have hkeep : (selection policy tz snapshots).keep.map Prod.fst =
      (snapshots.insertionSort Before).filter fun s => why policy tz snapshots s ≠ [] := by
    unfold selection
    rw [List.map_map]
    exact List.map_id _
  rw [hkeep, List.mem_filter, List.mem_insertionSort, decide_eq_true_iff]
  exact and_congr_right fun hs => why_ne_nil_iff hids hs

theorem mem_forget_iff : s ∈ (selection policy tz snapshots).forget ↔
    s ∈ snapshots ∧ why policy tz snapshots s = [] := by
  unfold selection
  rw [List.mem_filter, List.mem_insertionSort, decide_eq_true_iff]

theorem keep_append_forget_perm : ((selection policy tz snapshots).keep.map Prod.fst ++
    (selection policy tz snapshots).forget).Perm snapshots := by
  unfold selection
  rw [List.map_map]
  change (List.map id _ ++ _).Perm _
  rw [List.map_id]
  have hsplit := List.filter_append_perm (fun s => decide (why policy tz snapshots s ≠ []))
    (snapshots.insertionSort Before)
  simp only [decide_not, Bool.not_not] at hsplit ⊢
  exact hsplit.trans (List.perm_insertionSort Before snapshots)

theorem KeptBy.mono {rule : Rule} (h : KeptBy policy tz snapshots s rule)
    (hsub : ∀ t ∈ others, t ∈ snapshots) (hcount : policy.count rule ≤ more.count rule) :
    KeptBy more tz others s rule := by
  obtain ⟨hfirst, hfew⟩ := h
  have hnewer : ∀ t ∈ newer others s, t ∈ newer snapshots s := by
    intro t ht
    obtain ⟨hmem, hsame, hnewer⟩ := mem_newer.mp ht
    exact mem_newer.mpr ⟨hsub t hmem, hsame, hnewer⟩
  refine ⟨fun t ht => hfirst t (hnewer t ht), ?_⟩
  have hcard : ((newer others s).map (bucket tz rule)).toFinset.card ≤
      ((newer snapshots s).map (bucket tz rule)).toFinset.card := by
    apply Finset.card_le_card
    intro name hname
    rw [List.mem_toFinset, List.mem_map] at hname ⊢
    obtain ⟨t, ht, hbucket⟩ := hname
    exact ⟨t, hnewer t ht, hbucket⟩
  omega

theorem exists_rule (hpolicy : policy.isEmpty = false) : ∃ rule, 0 < policy.count rule := by
  by_contra hnone
  rw [not_exists] at hnone
  have hzero : ∀ rule, policy.count rule = 0 := fun rule => by
    have := hnone rule
    omega
  have hempty : policy = ⟨0, 0, 0, 0, 0, 0⟩ := by
    cases policy
    simp only [KeepPolicy.mk.injEq]
    exact ⟨hzero .last, hzero .hourly, hzero .daily, hzero .weekly, hzero .monthly, hzero .yearly⟩
  unfold KeepPolicy.isEmpty at hpolicy
  exact absurd hempty (of_decide_eq_false hpolicy)

theorem keptBy_of_newest {rule : Rule} (hnewest : ∀ t ∈ snapshots, SameGroup s t → ¬ Newer t s)
    (hcount : 0 < policy.count rule) : KeptBy policy tz snapshots s rule := by
  have hnil : newer snapshots s = [] := by
    rw [List.eq_nil_iff_forall_not_mem]
    intro t ht
    obtain ⟨hmem, hsame, hnewer⟩ := mem_newer.mp ht
    exact hnewest t hmem hsame hnewer
  unfold KeptBy FirstOfFew
  rw [hnil]
  exact ⟨fun t ht => absurd ht List.not_mem_nil, hcount⟩

theorem why_perm (hids : (snapshots.map Snapshot.id).Nodup) (h : snapshots.Perm others) :
    why policy tz snapshots s = why policy tz others s := by
  have hgroup : groupOf snapshots s = groupOf others s :=
    insertionSort_perm (groupOf_sublist hids) (h.filter _)
  unfold why
  rw [hgroup]

theorem selection_perm (hids : (snapshots.map Snapshot.id).Nodup) (h : snapshots.Perm others) :
    selection policy tz snapshots = selection policy tz others := by
  unfold selection
  simp only [why_perm hids h, insertionSort_perm hids h]

end Rules

/-- What `select` keeps and forgets, and that it depends on nothing but which snapshots there are. -/
theorem select_by_rules (snapshots : List Snapshot) (policy : KeepPolicy) (tz : TimeZone)
    (hids : (snapshots.map Snapshot.id).Nodup) (hpolicy : policy.isEmpty = false) :
    ∃ selection, select snapshots policy tz = .ok selection ∧
      (selection.keep.map Prod.fst ++ selection.forget).Perm snapshots ∧
      (∀ s, s ∈ selection.keep.map Prod.fst ↔
        s ∈ snapshots ∧ ∃ rule, KeptBy policy tz snapshots s rule) ∧
      (∀ s ∈ snapshots, (∀ t ∈ snapshots, SameGroup s t → ¬ Newer t s) →
        s ∈ selection.keep.map Prod.fst) ∧
      (∀ others, snapshots.Perm others → select others policy tz = .ok selection) ∧
      (∃ again, select (selection.keep.map Prod.fst) policy tz = .ok again ∧ again.forget = []) ∧
      ∀ more : KeepPolicy, (∀ rule, policy.count rule ≤ more.count rule) →
        ∃ wider, select snapshots more tz = .ok wider ∧
          ∀ s ∈ selection.keep.map Prod.fst, s ∈ wider.keep.map Prod.fst := by
  have hperm : ((selection policy tz snapshots).keep.map Prod.fst ++
      (selection policy tz snapshots).forget).Perm snapshots := keep_append_forget_perm
  have hkeep : ∀ s, s ∈ (selection policy tz snapshots).keep.map Prod.fst ↔
      s ∈ snapshots ∧ ∃ rule, KeptBy policy tz snapshots s rule := fun s => mem_keep_iff hids
  have hkeepIds : (((selection policy tz snapshots).keep.map Prod.fst).map Snapshot.id).Nodup := by
    have hall := (hperm.map Snapshot.id).nodup_iff.mpr hids
    rw [List.map_append] at hall
    exact (List.nodup_append.mp hall).1
  refine ⟨selection policy tz snapshots, select_eq hids hpolicy, hperm, hkeep, ?_, ?_, ?_, ?_⟩
  · intro s hs hnewest
    obtain ⟨rule, hcount⟩ := exists_rule hpolicy
    exact (hkeep s).mpr ⟨hs, rule, keptBy_of_newest hnewest hcount⟩
  · intro others hothers
    rw [select_eq ((hothers.map Snapshot.id).nodup_iff.mp hids) hpolicy, selection_perm hids hothers]
  · refine ⟨_, select_eq hkeepIds hpolicy, ?_⟩
    rw [List.eq_nil_iff_forall_not_mem]
    intro s hs
    obtain ⟨hmem, hwhy⟩ := mem_forget_iff.mp hs
    obtain ⟨_, rule, hkept⟩ := (hkeep s).mp hmem
    have hstill : KeptBy policy tz ((selection policy tz snapshots).keep.map Prod.fst) s rule :=
      hkept.mono (fun t ht => ((hkeep t).mp ht).1) le_rfl
    exact (why_ne_nil_iff hkeepIds hmem).mpr ⟨rule, hstill⟩ hwhy
  · intro more hmore
    obtain ⟨rule, hcount⟩ := exists_rule hpolicy
    have hmorePolicy : more.isEmpty = false := by
      apply decide_eq_false
      rintro rfl
      have hzero : KeepPolicy.count ⟨0, 0, 0, 0, 0, 0⟩ rule = 0 := by cases rule <;> rfl
      have := hmore rule
      omega
    refine ⟨_, select_eq hids hmorePolicy, fun s hs => ?_⟩
    obtain ⟨hmem, rule, hkept⟩ := (hkeep s).mp hs
    exact (mem_keep_iff hids).mpr ⟨hmem, rule, hkept.mono (fun _ h => h) (hmore rule)⟩

def hours : TimeZone where
  format := fun _ time => toString time
  isoWeek := fun time => (time, 0)

/-- Two snapshots of one host, one of them with a path twice. -/
def twice : List Snapshot := [⟨1, 10, "host", ["a"]⟩, ⟨2, 20, "host", ["a", "a"]⟩]

theorem select_by_rules_twice : ∃ selection, select twice ⟨1, 0, 0, 0, 0, 0⟩ hours = .ok selection ∧
    (selection.keep.map Prod.fst ++ selection.forget).Perm twice := by
  obtain ⟨selection, hselect, hperm, _⟩ :=
    select_by_rules twice ⟨1, 0, 0, 0, 0, 0⟩ hours (by decide) (by decide)
  exact ⟨selection, hselect, hperm⟩

/-- The paths are sorted, but a path that is there twice stays there twice: the older of the two is
kept as the last of another set of paths. -/
theorem groups_are_no_sets : ¬ ∀ (snapshots : List Snapshot) (policy : KeepPolicy) (tz : TimeZone),
    (snapshots.map Snapshot.id).Nodup → policy.isEmpty = false →
      ∃ selection, select snapshots policy tz = .ok selection ∧
        ∀ s, s ∈ selection.keep.map Prod.fst ↔ s ∈ snapshots ∧ ∃ rule,
          FirstOfFew (bucket tz rule) (policy.count rule)
            (snapshots.filter fun t => t.hostname = s.hostname ∧
              t.paths.toFinset = s.paths.toFinset ∧ Newer t s) s := by
  intro h
  have hids : (twice.map Snapshot.id).Nodup := by decide
  have hpolicy : KeepPolicy.isEmpty ⟨1, 0, 0, 0, 0, 0⟩ = false := by decide
  obtain ⟨found, hfound, hmem⟩ := h twice ⟨1, 0, 0, 0, 0, 0⟩ hours hids hpolicy
  rw [select_eq hids hpolicy] at hfound
  cases hfound
  have hkept : (⟨1, 10, "host", ["a"]⟩ : Snapshot) ∈
      (selection ⟨1, 0, 0, 0, 0, 0⟩ hours twice).keep.map Prod.fst := by
    apply (mem_keep_iff hids).mpr
    exact ⟨by decide, .last, keptBy_of_newest (by decide) (by decide)⟩
  obtain ⟨_, rule, _, hfew⟩ := (hmem _).mp hkept
  have hnewer : (twice.filter fun t => t.hostname = "host" ∧
      t.paths.toFinset = ["a"].toFinset ∧ Newer t ⟨1, 10, "host", ["a"]⟩) =
        [⟨2, 20, "host", ["a", "a"]⟩] := by decide
  change ((twice.filter fun t => t.hostname = "host" ∧ t.paths.toFinset = ["a"].toFinset ∧
    Newer t ⟨1, 10, "host", ["a"]⟩).map (bucket hours rule)).toFinset.card < _ at hfew
  rw [hnewer] at hfew
  have hone : (([⟨2, 20, "host", ["a", "a"]⟩] : List Snapshot).map (bucket hours rule)).toFinset.card =
      1 := rfl
  have hcount : KeepPolicy.count ⟨1, 0, 0, 0, 0, 0⟩ rule ≤ 1 := by cases rule <;> decide
  omega

end FileMirror.Retention
