import WalKv.Raft.Lookup
import WalKv.Consensus.Majority
import WalKv.Wal.Flat
import Mathlib.Order.Bounds.Basic

/-! The commit rule. The code sorts what every node has reached and looks at one
position of that list only. Terms do not fall along the log, so no other index has to
be tried. -/
namespace WalKv
namespace RaftCore
variable {W : Type} {core : RaftCore W} {n : Nat}

/-- How many nodes have reached an index, the leader among them. -/
def reachedBy (core : RaftCore W) (n : Nat) : Nat :=
  core.peers.countP (fun p => n ≤ (core.matchIndex p).getD 0) +
    if n ≤ core.lastLogIndex then 1 else 0

/-- A new index that a quorum has reached, with an entry of the current term. -/
structure Committable (core : RaftCore W) (n : Nat) : Prop where
  later : core.commitIndex < n
  reached : core.quorum ≤ core.reachedBy n
  current : (core.entryAt n).map LogEntry.term = some core.hard.currentTerm

theorem sortedMatches_count (core : RaftCore W) (n : Nat) :
    core.sortedMatches.countP (n ≤ ·) = core.reachedBy n := by
  rw [sortedMatches, (List.perm_insertionSort _ _).countP_eq, List.countP_append, List.countP_map,
    List.countP_singleton, reachedBy]
  simp only [decide_eq_true_eq]
  rfl

theorem candidate_exists (sized : core.clusterSize = core.peers.length + 1) :
    ∃ candidate, core.sortedMatches[core.quorum - 1]? = some candidate ∧
      candidate ∈ core.sortedMatches ∧ ∀ n, core.quorum ≤ core.reachedBy n ↔ n ≤ candidate := by
  have length : core.sortedMatches.length = core.clusterSize := by
    rw [sortedMatches, (List.perm_insertionSort _ _).length_eq]
    simp [sized]
  have inside : core.quorum - 1 < core.sortedMatches.length := by
    rw [length, quorum]
    omega
  have found := List.getElem?_eq_getElem inside
  refine ⟨_, found, List.getElem_mem inside, fun n => ?_⟩
  have counted := Consensus.count_iff_of_descending (n := n) (List.pairwise_insertionSort _ _) found
  rw [show core.quorum - 1 + 1 = core.quorum by rw [quorum]; omega] at counted
  rw [← sortedMatches_count]
  exact counted

theorem sortedMatches_le {bound : Nat} (matched : ∀ p ∈ core.peers, (core.matchIndex p).getD 0 ≤ bound)
    (own : core.lastLogIndex ≤ bound) : ∀ n ∈ core.sortedMatches, n ≤ bound := by
  intro n member
  rw [sortedMatches, (List.perm_insertionSort _ _).mem_iff, List.mem_append, List.mem_map,
    List.mem_singleton] at member
  rcases member with ⟨p, peer, rfl⟩ | rfl
  · exact matched p peer
  · exact own

theorem Contiguous.entryAt_some (contiguous : core.Contiguous)
    (above : core.snapshot.lastIncludedIndex < n) (within : n ≤ core.lastLogIndex) :
    ∃ i e, core.entries[i]? = some e ∧ core.entryAt n = some e ∧
      n = core.snapshot.lastIncludedIndex + i + 1 := by
  rw [contiguous.lastLogIndex] at within
  have inside : n - core.baseIndex < core.entries.length := by
    rw [baseIndex]
    omega
  refine ⟨n - core.baseIndex, _, List.getElem?_eq_getElem inside, ?_, ?_⟩
  · rw [entryAt, if_neg (by rw [baseIndex]; omega), List.getElem?_eq_getElem inside]
  · rw [baseIndex]
    omega

theorem current_above {m : Nat} (contiguous : core.Contiguous)
    (ordered : core.entries.Pairwise (·.term ≤ ·.term))
    (bounded : ∀ e ∈ core.entries, e.term ≤ core.hard.currentTerm)
    (below : core.snapshot.lastIncludedIndex < n) (order : n ≤ m) (within : m ≤ core.lastLogIndex)
    (current : (core.entryAt n).map LogEntry.term = some core.hard.currentTerm) :
    (core.entryAt m).map LogEntry.term = some core.hard.currentTerm := by
  obtain ⟨i, e, first, here, rfl⟩ := contiguous.entryAt_some below (order.trans within)
  obtain ⟨j, e', second, there, rfl⟩ := contiguous.entryAt_some (below.trans_le order) within
  rw [here] at current
  rw [there]
  rcases Nat.eq_or_lt_of_le (show i ≤ j by omega) with rfl | earlier
  · rw [← second, first]
    exact current
  · obtain ⟨inside, rfl⟩ := List.getElem?_eq_some_iff.mp first
    obtain ⟨inside', rfl⟩ := List.getElem?_eq_some_iff.mp second
    have rises := List.pairwise_iff_getElem.mp ordered i j inside inside' earlier
    have stamp := bounded _ (List.getElem_mem inside')
    have here : core.entries[i].term = core.hard.currentTerm := Option.some.inj current
    exact congrArg some (by omega)

/-- `advance_commit_index` moves the commit index to the largest index that may be
committed, and leaves the core alone if there is none. -/
theorem advanceCommitIndex_greatest (core : RaftCore W)
    (sized : core.clusterSize = core.peers.length + 1) (contiguous : core.Contiguous)
    (ordered : core.entries.Pairwise (·.term ≤ ·.term))
    (bounded : ∀ e ∈ core.entries, e.term ≤ core.hard.currentTerm)
    (matched : ∀ p ∈ core.peers, (core.matchIndex p).getD 0 ≤ core.lastLogIndex)
    (compacted : core.snapshot.lastIncludedIndex ≤ core.commitIndex) :
    IsGreatest {n | core.Committable n} core.advanceCommitIndex.commitIndex ∧
        core.advanceCommitIndex =
          { core with commitIndex := core.advanceCommitIndex.commitIndex } ∨
      (∀ n, ¬ core.Committable n) ∧ core.advanceCommitIndex = core := by
  obtain ⟨candidate, found, member, reaches⟩ := candidate_exists sized
  have within := sortedMatches_le matched le_rfl candidate member
  rw [advanceCommitIndex, found]
  simp only
  split_ifs with commits
  · obtain ⟨later, current⟩ := commits
    rw [termAt_entry (by omega)] at current
    refine .inl ⟨⟨⟨later, (reaches candidate).mpr le_rfl, current⟩, ?_⟩, rfl⟩
    intro n committable
    exact (reaches n).mp committable.reached
  · refine .inr ⟨fun n committable => commits ?_, rfl⟩
    have below := (reaches n).mp committable.reached
    have later := committable.later
    refine ⟨by omega, ?_⟩
    rw [termAt_entry (by omega)]
    exact current_above contiguous ordered bounded (by omega) below within committable.current

/-- A leader of four nodes in term 2. Node 4 has not answered yet. -/
def leaderOfFour : RaftCore FlatLog :=
  { assemble ⟨0, 0⟩ ((Config.new 1).withPeers [⟨2, ""⟩, ⟨3, ""⟩, ⟨4, ""⟩]) HardFile.absent default
      FlatLog.empty [⟨1, 1, .noop⟩, ⟨2, 2, .noop⟩, ⟨2, 3, .put [1] [1]⟩] with
    hard := ⟨2, some 1⟩
    role := .leader
    matchIndex := fun p => if p = 2 then some 3 else if p = 3 then some 2 else none }

/-- Only two nodes have the last entry; the one before it is committed. -/
theorem advanceCommitIndex_greatest_four :
    leaderOfFour.advanceCommitIndex.commitIndex = 2 ∧
      IsGreatest {n | leaderOfFour.Committable n} 2 := by
  have moved : leaderOfFour.advanceCommitIndex.commitIndex = 2 := by decide +kernel
  have holds : leaderOfFour.Holds leaderOfFour.entries := by decide +kernel
  refine ⟨moved, ?_⟩
  rcases advanceCommitIndex_greatest leaderOfFour rfl holds.contiguous (by decide) (by decide)
    (by decide) (by decide) with ⟨greatest, _⟩ | ⟨_, same⟩
  · rwa [moved] at greatest
  · rw [same] at moved
    cases moved

end RaftCore
end WalKv
