import FileMirror.LocalTree
import FileMirror.ShortestPrefix
import FileMirror.SortedLookup

set_option autoImplicit false

namespace FileMirror

open SortedLookup ShortestPrefix

/-- `bytes` are those freed; `lastUsed` is in Unix seconds. -/
structure Candidate where
  path : String
  bytes : ℕ
  lastUsed : ℤ
  deriving DecidableEq

def Candidate.rank (candidate : Candidate) : ℤ ×ₗ String :=
  toLex (candidate.lastUsed, candidate.path)

def leastRecent (candidates : List Candidate) : List Candidate :=
  sortByKey Candidate.rank candidates

/-- The loop; `freed` is a `u64`. -/
def pickEvictions (bytesNeeded maxFiles : ℕ) :
    ℕ → List String → List Candidate → List String
  | _, picked, [] => picked
  | freed, picked, candidate :: rest =>
      if bytesNeeded ≤ freed ∨ maxFiles ≤ picked.length then picked
      else pickEvictions bytesNeeded maxFiles ((freed + candidate.bytes) % 2 ^ 64)
        (picked ++ [candidate.path]) rest

def planSpaceEvictions (candidates : List Candidate) (bytesNeeded maxFiles : ℕ) : List String :=
  pickEvictions bytesNeeded maxFiles 0 [] (leastRecent candidates)

section Picks

variable {candidates candidates' : List Candidate} {bytesNeeded maxFiles freed more : ℕ}
  {picked : List String}

theorem pickEvictions_eq (hsum : freed + total Candidate.bytes candidates < 2 ^ 64) :
    pickEvictions bytesNeeded maxFiles freed picked candidates =
      picked ++ (takeEnough Candidate.bytes (bytesNeeded - freed) (maxFiles - picked.length)
        candidates).map Candidate.path := by
  induction candidates generalizing freed picked with
  | nil => simp [pickEvictions, takeEnough]
  | cons candidate rest ih =>
      rw [total_cons] at hsum
      have hstop : bytesNeeded ≤ freed ∨ maxFiles ≤ picked.length ↔
          bytesNeeded - freed = 0 ∨ maxFiles - picked.length = 0 := by
        omega
      rw [pickEvictions, takeEnough]
      simp only [hstop]
      split_ifs
      · simp
      · have hroom : maxFiles - (picked ++ [candidate.path]).length =
            maxFiles - picked.length - 1 := by
          rw [List.length_append, List.length_singleton]
          omega
        have hneed : bytesNeeded - (freed + candidate.bytes) =
            bytesNeeded - freed - candidate.bytes := by
          omega
        rw [Nat.mod_eq_of_lt (by omega), ih (by omega), hroom, hneed, List.map_cons,
          List.append_assoc, List.singleton_append]

theorem planSpaceEvictions_eq (hsum : total Candidate.bytes candidates < 2 ^ 64) :
    planSpaceEvictions candidates bytesNeeded maxFiles =
      (takeEnough Candidate.bytes bytesNeeded maxFiles (leastRecent candidates)).map
        Candidate.path := by
  have hsorted : 0 + total Candidate.bytes (leastRecent candidates) < 2 ^ 64 := by
    rw [Nat.zero_add, leastRecent, total_perm sortByKey_perm]
    exact hsum
  rw [planSpaceEvictions, pickEvictions_eq hsorted]
  rfl

theorem nodup_rank (h : (candidates.map Candidate.path).Nodup) :
    (candidates.map Candidate.rank).Nodup := by
  refine List.Nodup.of_map (fun rank => (ofLex rank).2) ?_
  rw [List.map_map]
  exact h

theorem leastRecent_congr (h : (candidates.map Candidate.path).Nodup)
    (hperm : candidates.Perm candidates') : leastRecent candidates = leastRecent candidates' :=
  sortByKey_congr (nodup_rank h) hperm

/-- The plan takes the shortest beginning of the least recently used that frees enough, in whatever
order the candidates come, and no fewer files where more bytes are needed. -/
theorem space_evictions_shortest (candidates : List Candidate) (bytesNeeded maxFiles : ℕ)
    (hsum : (candidates.map Candidate.bytes).sum < 2 ^ 64) :
    (∃ chosen, planSpaceEvictions candidates bytesNeeded maxFiles = chosen.map Candidate.path ∧
        Shortest Candidate.bytes bytesNeeded maxFiles (leastRecent candidates) chosen) ∧
      ((leastRecent candidates).Perm candidates ∧
        (leastRecent candidates).Pairwise fun a b => a.rank ≤ b.rank) ∧
      (∀ candidates', candidates.Perm candidates' → (candidates.map Candidate.path).Nodup →
        planSpaceEvictions candidates' bytesNeeded maxFiles =
          planSpaceEvictions candidates bytesNeeded maxFiles) ∧
      ∀ more, bytesNeeded ≤ more → (planSpaceEvictions candidates bytesNeeded maxFiles).length ≤
        (planSpaceEvictions candidates more maxFiles).length := by
  refine ⟨⟨_, planSpaceEvictions_eq hsum, shortest_takeEnough⟩,
    ⟨sortByKey_perm, sortByKey_sorted⟩, ?_, ?_⟩
  · intro candidates' hperm hdistinct
    rw [planSpaceEvictions, planSpaceEvictions, leastRecent_congr hdistinct hperm]
  · intro more hmore
    rw [planSpaceEvictions_eq hsum, planSpaceEvictions_eq hsum, List.length_map, List.length_map]
    exact shortest_takeEnough.length_le shortest_takeEnough hmore

def tied : List Candidate := [⟨"mid", 100, 2⟩, ⟨"old", 100, 2⟩, ⟨"new", 100, 3⟩]

theorem space_evictions_shortest_tied :
    planSpaceEvictions tied.reverse 150 10 = planSpaceEvictions tied 150 10 ∧
      planSpaceEvictions tied 150 10 = ["mid", "old"] :=
  ⟨(space_evictions_shortest tied 150 10 (by decide)).2.2.1 tied.reverse
    (List.reverse_perm tied).symm (by decide), by decide +kernel⟩

end Picks

end FileMirror
