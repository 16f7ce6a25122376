import WalKv.Raft.CommitRule
import WalKv.Raft.Campaign
import WalKv.Raft.Splicing

/-! Compaction. `compact` drops the entries first, then cuts the write-ahead log, and moves
the snapshot marker last; when the cut fails the entries are gone and the marker is not
moved. Between two compactions the log goes on from one snapshot. -/
namespace WalKv
namespace RaftCore
variable {W : Type} {core core' core'' : RaftCore W} {snapshotMeta : SnapshotMeta} {i : Nat}

/-- The log has no gap, and no more is applied than committed, or committed than there. -/
structure Regular (core : RaftCore W) : Prop where
  contiguous : core.Contiguous
  blank : core.snapshot.lastIncludedIndex = 0 → core.snapshot.lastIncludedTerm = 0
  applied : core.lastApplied ≤ core.commitIndex
  within : core.commitIndex ≤ core.lastLogIndex

/-- The log goes on from the same snapshot, and keeps what was committed. -/
structure Continues (core core' : RaftCore W) : Prop where
  snapshot : core'.snapshot = core.snapshot
  applied : core'.lastApplied = core.lastApplied
  contiguous : core'.Contiguous
  forward : core.commitIndex ≤ core'.commitIndex
  within : core'.commitIndex ≤ core'.lastLogIndex
  kept : ∀ k ≤ core.commitIndex, core'.entryAt k = core.entryAt k

theorem Continues.regular (continues : Continues core core') (regular : core.Regular) :
    core'.Regular where
  contiguous := continues.contiguous
  blank := by
    rw [continues.snapshot]
    exact regular.blank
  applied := by
    rw [continues.applied]
    exact regular.applied.trans continues.forward
  within := continues.within

namespace Continues

theorem trans (first : Continues core core') (second : Continues core' core'') :
    Continues core core'' where
  snapshot := second.snapshot.trans first.snapshot
  applied := second.applied.trans first.applied
  contiguous := second.contiguous
  forward := first.forward.trans second.forward
  within := second.within
  kept k committed :=
    (second.kept k (committed.trans first.forward)).trans (first.kept k committed)

theorem commit (regular : core.Regular) (snapshot : core'.snapshot = core.snapshot)
    (entries : core'.entries = core.entries) (applied : core'.lastApplied = core.lastApplied)
    (forward : core.commitIndex ≤ core'.commitIndex)
    (within : core'.commitIndex ≤ core.lastLogIndex) : Continues core core' where
  snapshot
  applied
  contiguous := by
    rw [Contiguous, entries, snapshot]
    exact regular.contiguous
  forward
  within := by
    rw [lastLogIndex, entries, snapshot]
    exact within
  kept k _ := by
    rw [entryAt, entryAt, baseIndex, baseIndex, entries, snapshot]

theorem sameLog (regular : core.Regular) (same : SameLog core core') : Continues core core' :=
  .commit regular same.snapshot same.entries same.lastApplied same.commitIndex.ge
    (same.commitIndex.le.trans regular.within)

theorem termAt (continues : Continues core core') (above : core.snapshot.lastIncludedIndex ≤ i)
    (committed : i ≤ core.commitIndex) : core'.termAt i = core.termAt i := by
  rcases Nat.eq_or_lt_of_le above with rfl | above
  · rw [RaftCore.termAt, RaftCore.termAt, continues.snapshot, if_pos rfl, if_pos rfl]
  · rw [termAt_entry above, termAt_entry (continues.snapshot ▸ above), continues.kept i committed]

end Continues

/-- A call that keeps a regular log going. -/
def Steady (core core' : RaftCore W) : Prop := core.Regular → Continues core core'

namespace Steady

theorem trans (first : Steady core core') (second : Steady core' core'') : Steady core core'' :=
  fun regular => (first regular).trans (second ((first regular).regular regular))

theorem sameLog (same : SameLog core core') : Steady core core' :=
  fun regular => .sameLog regular same

theorem advance (core : RaftCore W) : Steady core core.advanceCommitIndex := by
  intro regular
  obtain ⟨l, holds⟩ := regular.contiguous.holds regular.blank
  rcases holds.advance with same | ⟨k, above, within, same⟩
  · rw [same]
    exact .sameLog regular (.refl core)
  · rw [same]
    exact .commit regular rfl rfl rfl above.le (holds.lastLogIndex ▸ within)

theorem reply (peer lastSent : Nat) (reply : AppendEntriesReply) (core : RaftCore W) :
    Steady core (core.onAppendEntriesReply peer lastSent reply) := by
  obtain ⟨nextIndex, matchIndex, same | same⟩ := onAppendEntriesReply_cases peer lastSent reply core
  · rw [same]
    exact .sameLog rfl
  · rw [same]
    refine Steady.trans ?_ (.advance _)
    exact .sameLog rfl

theorem append {e : LogEntry} (next : e.index = core.lastLogIndex + 1)
    (snapshot : core'.snapshot = core.snapshot) (entries : core'.entries = core.entries ++ [e])
    (applied : core'.lastApplied = core.lastApplied)
    (commit : core'.commitIndex = core.commitIndex) : Steady core core' := by
  intro regular
  obtain ⟨l, holds⟩ := regular.contiguous.holds regular.blank
  rw [holds.lastLogIndex] at next
  have longer := holds.concat next snapshot entries
  have bound := regular.within
  rw [holds.lastLogIndex] at bound
  refine ⟨snapshot, applied, longer.contiguous, commit.ge, ?_, fun k committed => ?_⟩
  · rw [longer.lastLogIndex, commit, List.length_append]
    omega
  · rcases Nat.lt_or_ge core.snapshot.lastIncludedIndex k with above | below
    · rw [holds.entryAt above, longer.entryAt (snapshot ▸ above),
        List.getElem?_append_left (by omega)]
    · rw [entryAt, entryAt, baseIndex, baseIndex, snapshot, if_pos (by omega), if_pos (by omega)]

end Steady

theorem becomeCandidate_sameLog (clock : Clock) :
    Fallible.Keeps SameLog (becomeCandidate clock : Method W RequestVoteArgs) := by
  refine .bind SameLog.trans (fun _ => rfl) fun _ => ?_
  refine .bind SameLog.trans persistHard_sameLog fun _ => ?_
  refine .bind SameLog.trans (fun _ => rfl) fun _ => ?_
  refine .bind SameLog.trans (resetElectionTimer_sameLog clock) fun _ => ?_
  exact .bind SameLog.trans (.get SameLog.refl) fun _ => .pure SameLog.refl _

theorem handleRequestVote_sameLog (clock : Clock) (args : RequestVoteArgs) :
    Fallible.Keeps SameLog (handleRequestVote clock args : Method W RequestVoteReply) := by
  refine .bind SameLog.trans (.get SameLog.refl) fun _ => ?_
  split_ifs
  · exact .pure SameLog.refl _
  · refine .bind SameLog.trans ?_ fun _ => ?_
    · rw [Fallible.when]
      split_ifs
      · exact becomeFollower_sameLog _ _
      · exact .pure SameLog.refl ()
    refine .bind SameLog.trans (.get SameLog.refl) fun _ => ?_
    refine .bind SameLog.trans ?_ fun _ => ?_
    · rw [Fallible.when]
      split_ifs
      · refine .bind SameLog.trans (fun _ => rfl) fun _ => ?_
        exact .bind SameLog.trans persistHard_sameLog fun _ => resetElectionTimer_sameLog clock
      · exact .pure SameLog.refl ()
    · exact .bind SameLog.trans (.get SameLog.refl) fun _ => .pure SameLog.refl _

section Log
variable [WalOps W]

theorem sync_steady : Fallible.Keeps Steady (sync : Method W Unit) :=
  fun _ regular => .commit regular rfl rfl rfl le_rfl regular.within

variable [Bincode]

theorem appendCommand_steady (command : Command) :
    Fallible.Keeps Steady (appendCommand command : Method W LogEntry) := by
  intro core
  obtain ⟨only, same | grown⟩ := appendCommand_entries command core
  · intro regular
    exact .commit regular (by rw [only]) same (by rw [only]) (by rw [only])
      (by rw [only]; exact regular.within)
  · exact .append rfl (by rw [only]) grown (by rw [only]) (by rw [only])

/-- The locked section of `propose`. -/
def propose (command : Command) : Method W Nat := do
  let core ← Fallible.get
  if core.isLeader then do
    let entry ← appendCommand command
    sync
    Fallible.modify advanceCommitIndex
    pure entry.index
  else Fallible.stop (.err (.raft "not leader"))

theorem propose_steady (command : Command) :
    Fallible.Keeps Steady (propose command : Method W Nat) := by
  refine .bind Steady.trans (.get fun _ => .sameLog rfl) fun _ => ?_
  split_ifs
  · refine .bind Steady.trans (appendCommand_steady command) fun _ => ?_
    refine .bind Steady.trans sync_steady fun _ => ?_
    exact .bind Steady.trans Steady.advance fun _ => .pure (fun _ => .sameLog rfl) _
  · exact fun _ => .sameLog rfl

theorem winElection_steady : Fallible.Keeps Steady (winElection : Method W Unit) := by
  refine .bind Steady.trans (fun _ => .sameLog rfl) fun _ => ?_
  refine .bind Steady.trans (appendCommand_steady .noop) fun _ => ?_
  exact .bind Steady.trans sync_steady fun _ => Steady.advance

theorem store_commit (args : AppendEntriesArgs) (core : RaftCore W) :
    (store args core).2.commitIndex = core.commitIndex ∨
      core.commitIndex < args.leaderCommit ∧ (store args core).2.commitIndex =
        min args.leaderCommit (store args core).2.lastLogIndex := by
  obtain ⟨core', only, _, ⟨stop, ran⟩ | ⟨_, ran⟩⟩ := store_cases args core
  · rw [ran]
    exact .inl only.commitIndex
  · rw [ran, adoptCommit_eq, only.commitIndex]
    split_ifs with ahead
    · exact .inr ⟨ahead, rfl⟩
    · exact .inl rfl

/-- The log keeps its order, and what is committed in it. -/
def KeepsCommitted (core core' : RaftCore W) : Prop :=
  core'.Contiguous ∧ ∀ k ≤ core.commitIndex, core'.entryAt k = core.entryAt k

instance : Decidable (KeepsCommitted core core') := inferInstanceAs (Decidable (_ ∧ _))

theorem handleAppendEntries_continues (regular : core.Regular)
    (based : core.snapshot.lastIncludedIndex ≤ core.commitIndex) (clock : Clock)
    (args : AppendEntriesArgs) (keeps : KeepsCommitted core (handleAppendEntries clock args core).2) :
    Continues core (handleAppendEntries clock args core).2 := by
  obtain ⟨seen, same, _, ⟨ended, _⟩ | ⟨stored, _⟩⟩ := handleAppendEntries_cases clock args core
  · rw [ended]
    exact .sameLog regular same
  have only := store_only args seen
  have commit := store_commit args seen
  rw [← stored] at only commit
  rw [same.commitIndex] at commit
  generalize (handleAppendEntries clock args core).2 = core' at *
  have snapshot : core'.snapshot = core.snapshot := by
    rw [only]
    exact same.snapshot
  have applied : core'.lastApplied = core.lastApplied := by
    rw [only]
    exact same.lastApplied
  have reach : core.commitIndex ≤ core'.lastLogIndex := by
    rw [keeps.1.lastLogIndex, snapshot]
    rcases Nat.eq_or_lt_of_le based with none | above
    · omega
    · obtain ⟨_, e, _, found, _⟩ := regular.contiguous.entryAt_some above regular.within
      rw [← keeps.2 _ le_rfl, entryAt, baseIndex, snapshot, if_neg (by omega)] at found
      have inside := (List.getElem?_eq_some_iff.mp found).1
      omega
  exact ⟨snapshot, applied, keeps.1, by omega, by omega, keeps.2⟩

/-- The entries of the request follow each other, and none differs from a committed entry that
is not compacted away. -/
def Undisputed (core : RaftCore W) (args : AppendEntriesArgs) : Prop :=
  args.Contiguous ∧ ∀ e ∈ args.entries, core.snapshot.lastIncludedIndex < e.index →
    e.index ≤ core.commitIndex → core.termAt e.index = some e.term

omit [WalOps W] [Bincode] in
instance (args : AppendEntriesArgs) : Decidable (core.Undisputed args) :=
  inferInstanceAs (Decidable ((∀ j e, args.entries[j]? = some e → e.index =
    args.prevLogIndex + j + 1) ∧ ∀ e ∈ args.entries, core.snapshot.lastIncludedIndex < e.index →
    e.index ≤ core.commitIndex → core.termAt e.index = some e.term))

/-- Such a request keeps what is committed, also if it stops partway. -/
theorem Undisputed.keepsCommitted {args : AppendEntriesArgs} (undisputed : core.Undisputed args)
    (regular : core.Regular) (clock : Clock) :
    KeepsCommitted core (handleAppendEntries clock args core).2 := by
  obtain ⟨seen, same, _, ⟨ended, _⟩ | ⟨stored, passes, _⟩⟩ := handleAppendEntries_cases clock args core
  · rw [ended]
    exact ⟨(Continues.sameLog regular same).contiguous, (Continues.sameLog regular same).kept⟩
  obtain ⟨l, holds⟩ := regular.contiguous.holds regular.blank
  have held := same.holds holds
  have reach := passes.1
  rw [held.lastLogIndex] at reach
  have within := regular.within
  rw [holds.lastLogIndex] at within
  obtain ⟨l', holds', only, partway, _⟩ := held.store reach undisputed.1
  rw [stored]
  have agree (j : Nat) (committed : args.prevLogIndex + j < core.commitIndex) :
      ¬ Consensus.Differs seen.snapshot.lastIncludedIndex l args.prevLogIndex args.entries j := by
    rw [same.snapshot, ← holds.differs_iff]
    rintro ⟨above, e, sent, other⟩
    rw [AppendEntriesArgs.entryAt, if_neg (by omega), show args.prevLogIndex + j + 1 -
      args.prevLogIndex - 1 = j by omega] at sent
    have index := undisputed.1 j e sent
    rw [← index] at above other
    exact other (undisputed.2 e (List.mem_of_getElem? sent) above (by omega))
  have kept := partway.keeps within agree
  have snapshot : (store args seen).2.snapshot = core.snapshot := by
    rw [only]
    exact same.snapshot
  refine ⟨holds'.contiguous, fun k committed => ?_⟩
  rcases Nat.lt_or_ge core.snapshot.lastIncludedIndex k with above | covered
  · rw [holds'.entryAt (snapshot ▸ above), holds.entryAt above]
    have inside : k - 1 < core.commitIndex := by omega
    rw [← List.getElem?_take_of_lt inside, kept, List.getElem?_take_of_lt inside]
  · rw [entryAt, entryAt, baseIndex, baseIndex, snapshot, if_pos (by omega), if_pos (by omega)]

end Log

/-- What is known of the log from an index on is the same. -/
structure SameAbove (i : Nat) (core core' : RaftCore W) : Prop where
  lastIndex : core'.lastLogIndex = core.lastLogIndex
  lastTerm : core'.lastLogTerm = core.lastLogTerm
  terms : ∀ j, i ≤ j → core'.termAt j = core.termAt j
  entries : ∀ j, i < j → core'.entryAt j = core.entryAt j

theorem SameAbove.of_holds {l : List LogEntry} (holds : core.Holds l) (holds' : core'.Holds l)
    (above : core.snapshot.lastIncludedIndex ≤ i) (above' : core'.snapshot.lastIncludedIndex ≤ i) :
    SameAbove i core core' where
  lastIndex := holds'.lastLogIndex.trans holds.lastLogIndex.symm
  lastTerm := holds'.lastLogTerm.trans holds.lastLogTerm.symm
  terms j beyond := by
    rcases Nat.lt_or_ge l.length j with outside | inside
    · rw [holds'.termAt_above outside, holds.termAt_above outside]
    · rw [holds'.termAt (above'.trans beyond) inside, holds.termAt (above.trans beyond) inside]
  entries j beyond := by
    rw [holds'.entryAt (above'.trans_lt beyond), holds.entryAt (above.trans_lt beyond)]

/-- What is known of the log behind an index is the same, and the log ends where it did. -/
structure Unmoved (i : Nat) (core core' : RaftCore W) : Prop where
  lastIndex : core'.lastLogIndex = core.lastLogIndex
  lastTerm : core'.lastLogTerm = core.lastLogTerm
  terms : ∀ j, i < j → core'.termAt j = core.termAt j
  entries : ∀ j, i < j → core'.entryAt j = core.entryAt j

theorem SameAbove.unmoved (same : SameAbove i core core') : Unmoved i core core' :=
  ⟨same.lastIndex, same.lastTerm, fun j behind => same.terms j behind.le, same.entries⟩

/-- Entries dropped under a marker that has not moved are missed: the last index falls, or
another entry is found at the next index. -/
theorem Contiguous.dropped_moves (whole : core.Contiguous) (newer : core.snapshot.lastIncludedIndex < i)
    (snapshot : core'.snapshot = core.snapshot)
    (entries : core'.entries = core.entries.filter (i < ·.index))
    (unmoved : Unmoved i core core') : core.entries = [] := by
  by_contra some_entry
  have size := List.length_pos_iff.mpr some_entry
  have last := whole.lastLogIndex
  rw [filter_above whole] at entries
  rcases Nat.lt_or_ge i core.lastLogIndex with inside | beyond
  · have next := unmoved.entries (i + 1) (Nat.lt_succ_self i)
    have place : i + 1 - core.baseIndex = i - core.snapshot.lastIncludedIndex :=
      Nat.add_sub_add_right _ _ _
    have above : ¬ i + 1 < core.baseIndex := by
      rw [baseIndex]
      omega
    have base : core'.baseIndex = core.baseIndex := congrArg (·.lastIncludedIndex + 1) snapshot
    obtain ⟨e, found⟩ : ∃ e, core.entries[i - core.snapshot.lastIncludedIndex]? = some e :=
      ⟨_, List.getElem?_eq_getElem (by omega)⟩
    rw [entryAt, entryAt, base, if_neg above, if_neg above, place, found, entries,
      List.getElem?_drop] at next
    have index := whole _ _ found
    have other := whole _ _ next
    omega
  · have empty : core'.entries = [] := by
      rw [entries]
      exact List.drop_of_length_le (by omega)
    have ends := unmoved.lastIndex
    rw [RaftCore.lastLogIndex, empty, snapshot] at ends
    have ends : core.snapshot.lastIncludedIndex = core.lastLogIndex := ends
    omega

theorem dropped_differs (regular : core.Regular) (newer : core.snapshot.lastIncludedIndex < i)
    (within : i ≤ core.lastLogIndex) (snapshot : core'.snapshot = core.snapshot)
    (entries : core'.entries = core.entries.filter (i < ·.index)) : ¬ SameAbove i core core' := by
  intro same
  have none := regular.contiguous.dropped_moves newer snapshot entries same.unmoved
  have last := regular.contiguous.lastLogIndex
  rw [none, List.length_nil] at last
  omega

/-- The index of a committed entry, with the term of that entry. Of an entry that is compacted
already the core knows the snapshot. -/
structure Stamps (core : RaftCore W) (snapshotMeta : SnapshotMeta) : Prop where
  committed : snapshotMeta.lastIncludedIndex ≤ core.commitIndex
  term : core.snapshot = snapshotMeta ∨
    ∃ e, core.entryAt snapshotMeta.lastIncludedIndex = some e ∧
      e.index = snapshotMeta.lastIncludedIndex ∧ e.term = snapshotMeta.lastIncludedTerm

theorem snapshot_eq (index : snapshotMeta.lastIncludedIndex = core.snapshot.lastIncludedIndex)
    (found : core.termAt snapshotMeta.lastIncludedIndex = some snapshotMeta.lastIncludedTerm) :
    core.snapshot = snapshotMeta := by
  rw [termAt, if_pos index] at found
  cases snapshotMeta
  cases found
  cases index
  rfl

theorem Regular.termAt_some (regular : core.Regular)
    (above : core.snapshot.lastIncludedIndex ≤ i) (within : i ≤ core.lastLogIndex) :
    ∃ term, core.termAt i = some term := by
  obtain ⟨l, holds⟩ := regular.contiguous.holds regular.blank
  exact ⟨_, holds.termAt above (holds.lastLogIndex ▸ within)⟩

theorem Regular.compacted [WalOps W] (regular : core.Regular)
    (newer : core.snapshot.lastIncludedIndex < snapshotMeta.lastIncludedIndex)
    (ended : RaftCore.compact snapshotMeta core = (.ok (), core')) :
    core'.Regular ∧ core'.snapshot = snapshotMeta ∧ core'.lastApplied = core.lastApplied ∧
      core'.commitIndex = core.commitIndex ∧ core'.entries = core.entries.drop
        (snapshotMeta.lastIncludedIndex - core.snapshot.lastIncludedIndex) := by
  rw [compact_newer newer, filter_above regular.contiguous] at ended
  split at ended
  case h_2 => cases ended
  rename_i log _
  cases ended
  have whole : Contiguous { core with
      log, snapshot := snapshotMeta
      entries := core.entries.drop (snapshotMeta.lastIncludedIndex -
        core.snapshot.lastIncludedIndex) } := by
    intro i e found
    rw [List.getElem?_drop] at found
    have index := regular.contiguous _ e found
    simp only
    omega
  refine ⟨⟨whole, fun zero => ?_, regular.applied, ?_⟩, rfl, rfl, rfl, rfl⟩
  · exact absurd zero (Nat.ne_of_gt (Nat.zero_lt_of_lt newer))
  · have within := regular.within
    rw [regular.contiguous.lastLogIndex] at within
    rw [whole.lastLogIndex, List.length_drop]
    simp only
    omega

theorem Regular.stamps (regular : core.Regular)
    (above : core.snapshot.lastIncludedIndex ≤ snapshotMeta.lastIncludedIndex)
    (committed : snapshotMeta.lastIncludedIndex ≤ core.commitIndex)
    (found : core.termAt snapshotMeta.lastIncludedIndex = some snapshotMeta.lastIncludedTerm) :
    core.Stamps snapshotMeta := by
  refine ⟨committed, ?_⟩
  rcases Nat.eq_or_lt_of_le above with covered | above
  · exact .inl (snapshot_eq covered.symm found)
  · obtain ⟨i, e, here, entry, place⟩ :=
      regular.contiguous.entryAt_some above (committed.trans regular.within)
    rw [termAt_entry above, entry] at found
    exact .inr ⟨e, entry, (regular.contiguous i e here).trans place.symm, Option.some.inj found⟩

/-- Compaction at a committed index. If it succeeds the marker is there and the log is regular;
it succeeds exactly if nothing is lost from that index on. -/
theorem Regular.compact [WalOps W] (regular : core.Regular)
    (above : core.snapshot.lastIncludedIndex ≤ snapshotMeta.lastIncludedIndex)
    (committed : snapshotMeta.lastIncludedIndex ≤ core.commitIndex)
    (found : core.termAt snapshotMeta.lastIncludedIndex = some snapshotMeta.lastIncludedTerm) :
    ((RaftCore.compact snapshotMeta core).1 = .ok () →
      (RaftCore.compact snapshotMeta core).2.snapshot = snapshotMeta ∧
      (RaftCore.compact snapshotMeta core).2.lastApplied = core.lastApplied ∧
      (RaftCore.compact snapshotMeta core).2.Regular) ∧
    (SameAbove snapshotMeta.lastIncludedIndex core (RaftCore.compact snapshotMeta core).2 ↔
      (RaftCore.compact snapshotMeta core).1 = .ok ()) := by
  have within := committed.trans regular.within
  obtain ⟨l, holds⟩ := regular.contiguous.holds regular.blank
  rcases Nat.lt_or_ge core.snapshot.lastIncludedIndex snapshotMeta.lastIncludedIndex with
    newer | old
  · rw [compact_newer newer]
    rcases WalOps.truncatePrefix (snapshotMeta.lastIncludedIndex + 1) core.log with ⟨stop | ⟨⟩, log⟩
    · exact ⟨by simp, fun same => absurd same (dropped_differs regular newer within rfl rfl), by simp⟩
    · rw [holds.lastLogIndex] at within
      rw [holds.termAt above within] at found
      have held : Holds { core with
          log, snapshot := snapshotMeta
          entries := core.entries.filter fun e => snapshotMeta.lastIncludedIndex < e.index } l :=
        holds.dropped above within (Option.some.inj found).symm rfl rfl
      have same := SameAbove.of_holds holds held above le_rfl
      refine ⟨fun _ => ⟨rfl, rfl, held.contiguous, fun zero => ?_, regular.applied, ?_⟩,
        fun _ => rfl, fun _ => same⟩
      · exact absurd zero (Nat.ne_of_gt (Nat.zero_lt_of_lt newer))
      · rw [same.lastIndex]
        exact regular.within
  · rw [compact_idle (Nat.not_lt.mpr old)]
    have covered := snapshot_eq (Nat.le_antisymm old above) found
    exact ⟨fun _ => ⟨covered, rfl, regular⟩, fun _ => rfl, fun _ => .of_holds holds holds above above⟩

end RaftCore
end WalKv
