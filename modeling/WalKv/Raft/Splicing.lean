import WalKv.Raft.Backing
import WalKv.Raft.Ballot
import WalKv.Raft.Bincode
import Mathlib.Order.Bounds.Basic

/-! What AppendEntries does to a follower's log in memory, on any write-ahead log and
however its operations end. -/
namespace WalKv

/-- The entry that a request carries for an index. -/
def AppendEntriesArgs.entryAt (args : AppendEntriesArgs) (index : Nat) : Option LogEntry :=
  if index ≤ args.prevLogIndex then none else args.entries[index - args.prevLogIndex - 1]?

/-- The entries of the request follow each other from its previous index on. -/
def AppendEntriesArgs.Contiguous (args : AppendEntriesArgs) : Prop :=
  ∀ j e, args.entries[j]? = some e → e.index = args.prevLogIndex + j + 1

namespace RaftCore
variable {W : Type} {core core' : RaftCore W} {l : List LogEntry} {e : LogEntry} {p : Nat}
  {clock : Clock} {args : AppendEntriesArgs}

/-- The request has an entry above the snapshot for this index, and the log has none there
or one of another term. -/
structure Differs (core : RaftCore W) (args : AppendEntriesArgs) (k : Nat) : Prop where
  above : core.snapshot.lastIncludedIndex < k
  sent : ∃ e, args.entryAt k = some e ∧ core.termAt k ≠ some e.term

theorem Differs.beyond (differs : core.Differs args p) : args.prevLogIndex < p := by
  obtain ⟨e, sent, _⟩ := differs.sent
  by_contra covered
  rw [AppendEntriesArgs.entryAt, if_pos (by omega)] at sent
  cases sent

theorem Holds.differs_iff (holds : core.Holds l) {j : Nat} :
    core.Differs args (args.prevLogIndex + j + 1) ↔
      Consensus.Differs core.snapshot.lastIncludedIndex l args.prevLogIndex args.entries j := by
  have sent : args.entryAt (args.prevLogIndex + j + 1) = args.entries[j]? := by
    rw [AppendEntriesArgs.entryAt, if_neg (by omega), show args.prevLogIndex + j + 1 -
      args.prevLogIndex - 1 = j by omega]
  have stamp (above : core.snapshot.lastIncludedIndex < args.prevLogIndex + j + 1) :
      core.termAt (args.prevLogIndex + j + 1) = l[args.prevLogIndex + j]?.map LogEntry.term := by
    rw [termAt_entry above, holds.entryAt above, Nat.add_sub_cancel]
  constructor
  · rintro ⟨above, e, found, other⟩
    rw [sent] at found
    refine ⟨by omega, e, found, fun own here same => other ?_⟩
    rw [stamp above, here]
    exact congrArg some same
  · rintro ⟨above, e, found, other⟩
    refine ⟨by omega, e, sent.trans found, fun same => ?_⟩
    rw [stamp (by omega)] at same
    obtain ⟨own, here, term⟩ := Option.map_eq_some_iff.mp same
    exact other own here term

/-- The log after a request is accepted: unchanged if nothing differs, else the old log
below the first difference and the request's entries from there on. -/
structure Spliced (core : RaftCore W) (args : AppendEntriesArgs) (entries : List LogEntry) :
    Prop where
  same : (∀ k, ¬ core.Differs args k) → entries = core.entries
  replaced : ∀ k, IsLeast {k | core.Differs args k} k → entries =
    core.entries.take (k - core.baseIndex) ++ args.entries.drop (k - (args.prevLogIndex + 1))

theorem Holds.spliced (holds : core.Holds l) (reach : args.prevLogIndex ≤ l.length) :
    core.Spliced args ((Consensus.splice core.snapshot.lastIncludedIndex l args.prevLogIndex
      args.entries).drop core.snapshot.lastIncludedIndex) where
  same none := by
    rw [Consensus.splice_same fun j differs => none _ (holds.differs_iff.mpr differs),
      holds.entries]
  replaced k least := by
    obtain ⟨j, rfl⟩ := Nat.exists_eq_add_of_lt least.1.beyond
    have above := least.1.above
    have first : ∀ i < j, ¬ Consensus.Differs core.snapshot.lastIncludedIndex l args.prevLogIndex
        args.entries i := by
      intro i earlier differs
      have bound := least.2 (holds.differs_iff.mpr differs)
      omega
    have differs := holds.differs_iff.mp least.1
    have inside := differs.within first reach holds.compacted
    rw [Consensus.splice_first differs first reach holds.compacted, holds.entries,
      List.drop_append_of_le_length (by simp; omega), List.take_drop, baseIndex]
    congr 2
    · congr 1
      omega
    · omega

/-- Nothing about the log and the progress on it differs. -/
def SameLog (core core' : RaftCore W) : Prop := core'.logPart = core.logPart

namespace SameLog

theorem refl (core : RaftCore W) : SameLog core core := rfl

theorem trans {core'' : RaftCore W} (first : SameLog core core') (second : SameLog core' core'') :
    SameLog core core'' :=
  Eq.trans second first

theorem snapshot (same : SameLog core core') : core'.snapshot = core.snapshot :=
  congrArg (·.2.2.1) same

theorem entries (same : SameLog core core') : core'.entries = core.entries :=
  congrArg (·.2.1) same

theorem log (same : SameLog core core') : core'.log = core.log :=
  congrArg (·.1) same

theorem commitIndex (same : SameLog core core') : core'.commitIndex = core.commitIndex :=
  congrArg (·.2.2.2.1) same

theorem lastApplied (same : SameLog core core') : core'.lastApplied = core.lastApplied :=
  congrArg (·.2.2.2.2) same

theorem holds (same : SameLog core core') (holds : core.Holds l) : core'.Holds l :=
  holds.congr same.snapshot same.entries

end SameLog

theorem persistHard_sameLog : Fallible.Keeps SameLog (persistHard : Method W Unit) :=
  fun _ => rfl

theorem resetElectionTimer_sameLog (clock : Clock) :
    Fallible.Keeps SameLog (resetElectionTimer clock : Method W Unit) := by
  intro core
  obtain ⟨deadline, same⟩ := resetElectionTimer_deadline clock core
  rw [same]
  rfl

theorem becomeFollower_sameLog (term : Nat) (leader : Option Nat) :
    Fallible.Keeps SameLog (becomeFollower term leader : Method W Unit) := by
  refine .bind SameLog.trans (.get SameLog.refl) fun _ => ?_
  refine .bind SameLog.trans ?_ fun _ _ => rfl
  rw [Fallible.when]
  split_ifs
  · exact .bind SameLog.trans (fun _ => rfl) fun _ => persistHard_sameLog
  · exact .pure SameLog.refl ()

theorem recogniseLeader_sameLog (args : AppendEntriesArgs) :
    Fallible.Keeps SameLog (recogniseLeader args : Method W Unit) := by
  intro core
  unfold recogniseLeader
  split_ifs
  · exact becomeFollower_sameLog _ _ core
  · rfl

section Log
variable [WalOps W] [Bincode]

theorem appendReplicated_cases (e : LogEntry) (core : RaftCore W) :
    (∃ log, RaftCore.appendReplicated e core =
        (.ok (), { core with log, entries := core.entries ++ [e] })) ∨
      ∃ stop log, RaftCore.appendReplicated e core = (.error stop, { core with log }) := by
  rw [RaftCore.appendReplicated, Fallible.bind_run, Fallible.lift_run]
  cases Bincode.serialize e with
  | error error => exact .inr ⟨.err error, core.log, rfl⟩
  | ok bytes =>
    simp only [Except.mapError, Fallible.bind_run, onLog, Fallible.part_run]
    rcases WalOps.append bytes core.log with ⟨stop | index, log⟩
    · exact .inr ⟨stop, log, rfl⟩
    · exact .inl ⟨log, rfl⟩

theorem Holds.splice {es : List LogEntry} (holds : core.Holds l) (reach : p ≤ l.length)
    (contiguous : ∀ j e, es[j]? = some e → e.index = p + j + 1) :
    ∃ l', (RaftCore.splice es core).2.Holds l' ∧
      ((RaftCore.splice es core).1 = .ok () →
        l' = Consensus.splice core.snapshot.lastIncludedIndex l p es) ∧
      Consensus.Partway core.snapshot.lastIncludedIndex l p es l' := by
  induction es generalizing core l p with
  | nil => exact ⟨l, holds, fun _ => rfl, .spliced 0⟩
  | cons e es ih =>
    obtain ⟨index, contiguous⟩ := consecutive_tail contiguous
    have extend {core' : RaftCore W} {l' : List LogEntry} (holds : core'.Holds l')
        (snapshot : core'.snapshot = core.snapshot) (length : l'.length = p) :
        ∃ l'', ((RaftCore.appendReplicated e >>= fun _ => RaftCore.splice es) core').2.Holds l'' ∧
          (((RaftCore.appendReplicated e >>= fun _ => RaftCore.splice es) core').1 = .ok () →
            l'' = Consensus.splice core.snapshot.lastIncludedIndex (l' ++ [e]) (p + 1) es) ∧
          (l'' = l' ∨ ∃ j, l'' = Consensus.splice core.snapshot.lastIncludedIndex (l' ++ [e])
            (p + 1) (es.take j)) := by
      rcases appendReplicated_cases e core' with ⟨log, appended⟩ | ⟨stop, log, stopped⟩
      · rw [Fallible.bind_ok appended]
        have holds' : Holds { core' with log, entries := core'.entries ++ [e] } (l' ++ [e]) :=
          holds.concat (by omega) rfl rfl
        obtain ⟨l'', held, ended, part⟩ := ih holds' (by simp; omega) contiguous
        exact ⟨l'', held, snapshot ▸ ended, .inr (snapshot ▸ part.at_end (by simp; omega))⟩
      · rw [Fallible.bind_error stopped]
        exact ⟨l', holds.congr rfl rfl, by simp, .inl rfl⟩
    rcases holds.splice_step index reach es with
      ⟨inside, skip, same⟩ | ⟨above, own, found, differ, same⟩ | ⟨above, end', same⟩
    · rw [same, Consensus.splice_skip skip]
      obtain ⟨l', held, ended, part⟩ := ih holds inside contiguous
      exact ⟨l', held, ended, part.skip skip⟩
    · have inside := (List.getElem?_eq_some_iff.mp found).1
      have differs : Consensus.Differs core.snapshot.lastIncludedIndex l p (e :: es) 0 := by
        refine ⟨above, e, rfl, fun other here => ?_⟩
        rw [Nat.add_zero, found] at here
        cases here
        exact differ
      have holds' := holds.truncateFrom above inside.le
      have snapshot : (RaftCore.truncateFrom (p + 1) core).2.snapshot = core.snapshot := rfl
      rw [same, Consensus.splice_cut above found differ]
      rcases cut : RaftCore.truncateFrom (p + 1) core with ⟨stop | ⟨⟩, core'⟩ <;>
        rw [cut] at holds' snapshot
      · rw [Fallible.bind_error cut]
        exact ⟨_, holds', by simp, .cut differs⟩
      · rw [Fallible.bind_ok cut]
        obtain ⟨l', held, ended, rfl | ⟨j, rfl⟩⟩ :=
          extend holds' snapshot (List.length_take_of_le inside.le)
        · exact ⟨_, held, ended, .cut differs⟩
        · refine ⟨_, held, ended, ?_⟩
          rw [← Consensus.splice_cut above found differ, ← List.take_succ_cons]
          exact .spliced (j + 1)
    · rw [same, Consensus.splice_append above end'.le]
      obtain ⟨l', held, ended, rfl | ⟨j, rfl⟩⟩ := extend holds rfl end'
      · exact ⟨_, held, ended, .spliced 0⟩
      · refine ⟨_, held, ended, ?_⟩
        rw [← Consensus.splice_append above end'.le, ← List.take_succ_cons]
        exact .spliced (j + 1)

theorem Holds.store (holds : core.Holds l) (reach : args.prevLogIndex ≤ l.length)
    (contiguous : args.Contiguous) : ∃ l', (RaftCore.store args core).2.Holds l' ∧
      LogOnly core (RaftCore.store args core).2 ∧
      Consensus.Partway core.snapshot.lastIncludedIndex l args.prevLogIndex args.entries l' ∧
      ((∃ stop, (RaftCore.store args core).1 = .error stop) ∧
          (RaftCore.store args core).2.commitIndex = core.commitIndex ∨
        (RaftCore.store args core).1 = .ok ⟨core.hard.currentTerm, true, 0⟩ ∧
          l' = Consensus.splice core.snapshot.lastIncludedIndex l args.prevLogIndex args.entries ∧
          (RaftCore.store args core).2.commitIndex = if core.commitIndex < args.leaderCommit
            then min args.leaderCommit l'.length else core.commitIndex) := by
  obtain ⟨l', held, ended, part⟩ := holds.splice reach contiguous
  have snapshot : (RaftCore.splice args.entries core).2.snapshot = core.snapshot := by
    rw [splice_only args.entries core]
  obtain ⟨core', only, entries, outcome⟩ := store_cases args core
  have held : core'.Holds l' := held.congr (by rw [only, snapshot]) entries
  refine ⟨l', ?_⟩
  rcases outcome with ⟨stop, ran⟩ | ⟨spliced, ran⟩
  · rw [ran]
    exact ⟨held, only.logOnly, part, .inl ⟨⟨stop, rfl⟩, only.commitIndex⟩⟩
  · rw [ran, adoptCommit_eq, held.lastLogIndex, only.commitIndex]
    exact ⟨held.congr rfl rfl, only.logOnly.trans rfl, part, .inr ⟨rfl, ended spliced, rfl⟩⟩

omit [WalOps W] [Bincode] in
theorem becomeFollower_term {term : Nat} {leader : Option Nat}
    (newer : core.hard.currentTerm < term) :
    (becomeFollower term leader core).2.hard.currentTerm = term := by
  simp only [becomeFollower, Fallible.bind_run, Fallible.get_run, Fallible.when_run, if_pos newer,
    Fallible.modify_run, persistHard, Fallible.part_run]
  rcases HardFile.persist ⟨term, none⟩ core.hardPath with ⟨stop | ⟨⟩, file⟩ <;> rfl

omit [WalOps W] [Bincode] in
theorem recogniseLeader_term (current : core.hard.currentTerm ≤ args.term) :
    (recogniseLeader args core).2.hard.currentTerm = args.term := by
  unfold recogniseLeader
  split_ifs with newer
  · exact becomeFollower_term newer
  · exact Nat.le_antisymm current (Nat.le_of_not_lt newer)

/-- A request passes the log-matching check. -/
def Passes (core : RaftCore W) (args : AppendEntriesArgs) : Prop :=
  args.prevLogIndex ≤ core.lastLogIndex ∧
    ¬ (core.termAt args.prevLogIndex).any (· ≠ args.prevLogTerm)

theorem handleAppendEntries_cases (clock : Clock) (args : AppendEntriesArgs) (core : RaftCore W) :
    ∃ seen, SameLog core seen ∧
      seen.hard.currentTerm = max core.hard.currentTerm args.term ∧
      ((handleAppendEntries clock args core).2 = seen ∧
          (∀ reply, (handleAppendEntries clock args core).1 = .ok reply →
            reply.success = false ∧ reply.term = seen.hard.currentTerm ∧
              (core.hard.currentTerm ≤ args.term → ¬ seen.Passes args)) ∨
        handleAppendEntries clock args core = RaftCore.store args seen ∧ seen.Passes args ∧
          core.hard.currentTerm ≤ args.term) := by
  rw [handleAppendEntries, Fallible.bind_ok (Fallible.get_run core)]
  split_ifs with stale
  · refine ⟨core, .refl core, by omega, .inl ⟨rfl, ?_⟩⟩
    rintro _ ⟨⟩
    exact ⟨rfl, rfl, fun current => absurd stale (Nat.not_lt.mpr current)⟩
  · have current := Nat.le_of_not_lt stale
    have first := recogniseLeader_sameLog args core
    have term := recogniseLeader_term current
    rcases recognised : recogniseLeader args core with ⟨stop | ⟨⟩, core₁⟩ <;>
      rw [recognised] at first term
    · rw [Fallible.bind_error recognised]
      exact ⟨core₁, first, by simp only at term; omega, .inl ⟨rfl, by simp⟩⟩
    · rw [Fallible.bind_ok recognised]
      have second := first.trans (resetElectionTimer_sameLog clock core₁)
      have term : (resetElectionTimer clock core₁).2.hard.currentTerm =
          max core.hard.currentTerm args.term := by
        obtain ⟨deadline, same⟩ := resetElectionTimer_deadline clock core₁
        rw [same, Nat.max_eq_right current]
        exact term
      rcases timed : resetElectionTimer clock core₁ with ⟨stop | ⟨⟩, seen⟩ <;>
        rw [timed] at second term
      · rw [Fallible.bind_error timed]
        exact ⟨seen, second, term, .inl ⟨rfl, by simp⟩⟩
      · rw [Fallible.bind_ok timed, matchAndStore_run]
        refine ⟨seen, second, term, ?_⟩
        split_ifs with ahead differs
        · refine .inl ⟨rfl, ?_⟩
          rintro _ ⟨⟩
          exact ⟨rfl, rfl, fun _ passes => absurd passes.1 (Nat.not_le.mpr ahead)⟩
        · refine .inl ⟨rfl, ?_⟩
          rintro _ ⟨⟩
          exact ⟨rfl, rfl, fun _ passes => passes.2 differs⟩
        · exact .inr ⟨rfl, ⟨Nat.le_of_not_lt ahead, differs⟩, current⟩

theorem handleAppendEntries_snapshot (clock : Clock) (args : AppendEntriesArgs)
    (core : RaftCore W) : (handleAppendEntries clock args core).2.snapshot = core.snapshot := by
  obtain ⟨seen, same, _, ⟨stays, _⟩ | ⟨stored, _⟩⟩ := handleAppendEntries_cases clock args core
  · rw [stays, same.snapshot]
  · rw [stored, store_only args seen, same.snapshot]

/-- The commit index stays within what an accepted request has shown exactly if the leader's
commit index or the own log does not go further, or the request replaced what did. -/
theorem commit_verified_iff {reply : AppendEntriesReply} (whole : core.Contiguous)
    (blank : core.snapshot.lastIncludedIndex = 0 → core.snapshot.lastIncludedTerm = 0)
    (contiguous : args.Contiguous)
    (accepted : handleAppendEntries clock args core = (.ok reply, core'))
    (success : reply.success = true) :
    core'.commitIndex ≤ max core.commitIndex (min args.leaderCommit args.lastSent) ↔
      args.leaderCommit ≤ max core.commitIndex args.lastSent ∨
        core.lastLogIndex ≤ max core.commitIndex args.lastSent ∨ ∃ k, core.Differs args k := by
  obtain ⟨l, holds⟩ := whole.holds blank
  obtain ⟨seen, same, _, ⟨_, refused⟩ | ⟨stored, ⟨reach, _⟩, _⟩⟩ :=
    handleAppendEntries_cases clock args core
  · rw [accepted] at refused
    rw [(refused reply rfl).1] at success
    cases success
  have held := same.holds holds
  rw [held.lastLogIndex] at reach
  obtain ⟨l', _, _, _, ⟨⟨stop, stopped⟩, _⟩ | ⟨_, spliced, commit⟩⟩ :=
    held.store reach contiguous
  · rw [← stored, accepted] at stopped
    cases stopped
  rw [← stored, accepted, same.commitIndex] at commit
  have commit : core'.commitIndex = if core.commitIndex < args.leaderCommit
      then min args.leaderCommit l'.length else core.commitIndex := commit
  rw [same.snapshot] at spliced
  rw [commit, holds.lastLogIndex, AppendEntriesArgs.lastSent]
  by_cases differs : ∃ k, core.Differs args k
  · have places : ∃ j, Consensus.Differs core.snapshot.lastIncludedIndex l args.prevLogIndex
        args.entries j := by
      obtain ⟨k, differs⟩ := differs
      obtain ⟨j, rfl⟩ := Nat.exists_eq_add_of_lt differs.beyond
      exact ⟨j, holds.differs_iff.mp differs⟩
    have length := Consensus.splice_length places reach holds.compacted
    rw [← spliced] at length
    simp only [differs, or_true, iff_true]
    split_ifs <;> omega
  · have length : l'.length = l.length := by
      rw [spliced, Consensus.splice_same]
      exact fun j here => differs ⟨_, holds.differs_iff.mpr here⟩
    simp only [differs, or_false]
    split_ifs <;> omega

/-- The write-ahead log has one record for each entry, under its index, and above the
snapshot no other record. -/
def Mirrored (core : RaftCore W) : Prop :=
  ∃ records, WalOps.readAll core.log = .ok records ∧
    List.Forall₂ (fun record e => record.1 = e.index ∧ Bincode.serialize e = .ok record.2)
      (records.filter (core.snapshot.lastIncludedIndex < ·.1)) core.entries

omit [WalOps W] in
theorem mirror_from (first covered : Nat) (records : List Bytes) (tail : List LogEntry) (i : Nat)
    (pairs : List.Forall₂ (fun bytes e => Bincode.serialize e = .ok bytes) records tail)
    (indexed : ∀ j e, tail[j]? = some e → e.index = first + i + j) :
    List.Forall₂ (fun record e => record.1 = e.index ∧ Bincode.serialize e = .ok record.2)
      (((records.zipIdx i).map fun (record, j) => (first + j, record)).filter (covered < ·.1))
      (tail.drop (covered + 1 - first - i)) := by
  induction pairs generalizing i with
  | nil => simp
  | @cons bytes e records tail encoded pairs ih =>
    have index : e.index = first + i := indexed 0 e rfl
    have rest := ih (i + 1) fun j x found => by
      have := indexed (j + 1) x (by simpa using found)
      omega
    rw [List.zipIdx_cons, List.map_cons]
    by_cases below : covered < first + i
    · rw [List.filter_cons_of_pos (by simpa using below),
        show covered + 1 - first - i = 0 by omega]
      rw [show covered + 1 - first - (i + 1) = 0 by omega] at rest
      exact .cons ⟨index.symm, encoded⟩ rest
    · rw [List.filter_cons_of_neg (by simpa using below), show covered + 1 - first - i =
        (covered + 1 - first - (i + 1)) + 1 by omega, List.drop_succ_cons]
      exact rest

theorem Grounded.mirrored [Journal W] (grounded : core.Grounded l false) : core.Mirrored := by
  obtain ⟨flatLog, shown, backs, reaches⟩ := grounded.recorded
  refine ⟨flatLog.readAll, Journal.readAll shown, ?_⟩
  have positive := backs.positive
  have mirror := mirror_from flatLog.firstIndex core.snapshot.lastIncludedIndex _ _ 0 backs.records
    fun j e found => by
      have index := grounded.holds.indexed.drop _ j e found
      omega
  rw [List.drop_drop, show flatLog.firstIndex - 1 + (core.snapshot.lastIncludedIndex + 1 -
    flatLog.firstIndex - 0) = core.snapshot.lastIncludedIndex by omega, ← grounded.holds.entries]
    at mirror
  exact mirror

omit [WalOps W] [Bincode] in
theorem Holds.matches_iff (holds : core.Holds l) (reach : p ≤ l.length) {term : Nat} :
    ¬ (core.termAt p).any (· ≠ term) ↔
      p < core.snapshot.lastIncludedIndex ∨ core.termAt p = some term := by
  rcases Nat.lt_or_ge p core.snapshot.lastIncludedIndex with below | above
  · simp [Holds.termAt_below core below, below]
  · simp [holds.termAt above reach, Nat.not_lt.mpr above]

/-- `handle_append_entries` accepts exactly what passes the log-matching check. It leaves the
log alone when it refuses, and computes the splice when it accepts; memory and write-ahead
log stay in step. -/
theorem handleAppendEntries_splices [Journal W] (grounded : core.Grounded l false)
    (durable : core.hardPath.outcomes = [])
    (timed : asMillis core.electionTimeout.start < asMillis core.electionTimeout.stop)
    (current : core.hard.currentTerm ≤ args.term) (contiguous : args.Contiguous)
    (recordable : ∀ e ∈ args.entries, Recordable W e) (clock : Clock) :
    ∃ reply core', handleAppendEntries clock args core = (.ok reply, core') ∧
      (reply.success = true ↔ args.prevLogIndex ≤ core.lastLogIndex ∧
        (args.prevLogIndex < core.snapshot.lastIncludedIndex ∨
          core.termAt args.prevLogIndex = some args.prevLogTerm)) ∧
      (reply.success = false → SameLog core core' ∧ reply.conflictIndex ≤ args.prevLogIndex) ∧
      (reply.success = true → core.Spliced args core'.entries ∧
        core'.snapshot = core.snapshot) ∧
      core'.Mirrored := by
  rw [handleAppendEntries_durable durable timed, if_neg (Nat.not_lt.mpr current)]
  have same : SameLog core ((core.recognised args).armed clock) := recognised_logPart args clock core
  revert same
  generalize (core.recognised args).armed clock = seen
  intro same
  have held := grounded.congr same.snapshot same.entries same.log
  have last : core.lastLogIndex = seen.lastLogIndex := by
    rw [grounded.holds.lastLogIndex, held.holds.lastLogIndex]
  have stamp : core.termAt args.prevLogIndex = seen.termAt args.prevLogIndex :=
    (termAt_congr same.snapshot same.entries).symm
  rw [matchAndStore_run, last, stamp, ← same.snapshot]
  split_ifs with ahead differs
  · refine ⟨_, seen, rfl, ?_, fun _ => ⟨same, ahead⟩, nofun, held.mirrored⟩
    simp only [reject, Bool.false_eq_true, false_iff, not_and]
    intro reach
    omega
  · refine ⟨_, seen, rfl, ?_, fun _ => ⟨same, le_rfl⟩, nofun, held.mirrored⟩
    simp only [reject, Bool.false_eq_true, false_iff, not_and]
    intro reach passes
    rw [held.holds.lastLogIndex] at reach
    exact (held.holds.matches_iff reach).mpr passes differs
  · have reach := Nat.le_of_not_lt ahead
    rw [held.holds.lastLogIndex] at reach
    obtain ⟨core', stored, only, grounded', _⟩ := held.store reach contiguous recordable rfl
    have snapshot : core'.snapshot = seen.snapshot := by rw [only]
    refine ⟨_, core', stored, ?_, nofun, fun _ => ⟨?_, snapshot⟩, grounded'.mirrored⟩
    · simp only [true_iff]
      exact ⟨Nat.le_of_not_lt ahead, (held.holds.matches_iff reach).mp differs⟩
    · rw [grounded'.holds.entries, snapshot, same.snapshot]
      exact grounded.holds.spliced reach

end Log

/-- A follower with two entries of term 1, of which the first is committed. -/
def tailed : RaftCore FlatLog :=
  { assemble ⟨0, 0⟩ ((Config.new 2).withPeers [⟨1, ""⟩, ⟨3, ""⟩]) HardFile.absent default
      ⟨1, [(Bincode.serialize ⟨1, 1, .noop⟩).toOption.getD [],
        (Bincode.serialize ⟨1, 2, .put [1] [1]⟩).toOption.getD []]⟩
      [⟨1, 1, .noop⟩, ⟨1, 2, .put [1] [1]⟩] with
    hard := ⟨1, none⟩
    commitIndex := 1 }

theorem tailed_holds : tailed.Holds tailed.entries := by decide +kernel

/-- A leader of term 2 replaces the second entry and commits its own. -/
def overwriting : AppendEntriesArgs := ⟨2, 3, 1, 1, [⟨2, 2, .noop⟩], 2⟩

theorem overwriting_contiguous : overwriting.Contiguous := by
  intro j e found
  obtain ⟨inside, rfl⟩ := List.getElem?_eq_some_iff.mp found
  have first : j = 0 := Nat.lt_one_iff.mp inside
  subst first
  rfl

theorem overwriting_differs : tailed.Differs overwriting 2 :=
  ⟨by decide, ⟨2, 2, .noop⟩, by decide, by decide⟩

theorem handleAppendEntries_splices_replaced : ∃ reply core',
    handleAppendEntries ⟨0, 0⟩ overwriting tailed = (.ok reply, core') ∧ reply.success = true ∧
      core'.entries = [⟨1, 1, .noop⟩, ⟨2, 2, .noop⟩] ∧ core'.Mirrored := by
  have grounded : tailed.Grounded tailed.entries false :=
    ⟨tailed_holds, tailed.log, rfl, by decide +kernel, by decide⟩
  have recordable : ∀ e ∈ overwriting.entries, Recordable FlatLog e := by
    intro e member
    rw [List.mem_singleton.mp member]
    exact ⟨_, rfl, trivial⟩
  obtain ⟨reply, core', ran, accepts, _, splices, mirrored⟩ := handleAppendEntries_splices grounded rfl
    (by decide) (by decide) overwriting_contiguous recordable ⟨0, 0⟩
  have success := accepts.mpr (by decide)
  have least : IsLeast {k | tailed.Differs overwriting k} 2 :=
    ⟨overwriting_differs, fun k other => other.beyond⟩
  exact ⟨reply, core', ran, success, (splices success).1.replaced 2 least, mirrored⟩

theorem commit_verified_iff_replaced : ∃ reply core',
    handleAppendEntries ⟨0, 0⟩ overwriting tailed = (.ok reply, core') ∧ reply.success = true ∧
      core'.commitIndex ≤ max tailed.commitIndex (min overwriting.leaderCommit overwriting.lastSent) := by
  have replied : (handleAppendEntries ⟨0, 0⟩ overwriting tailed).1.toOption.any (·.success) = true := by
    decide +kernel
  rcases ran : handleAppendEntries ⟨0, 0⟩ overwriting tailed with ⟨stop | reply, core'⟩ <;>
    rw [ran] at replied
  · cases replied
  · exact ⟨reply, core', rfl, replied, (commit_verified_iff tailed_holds.contiguous (fun _ => rfl)
      overwriting_contiguous ran replied).mpr (.inr (.inr ⟨2, overwriting_differs⟩))⟩

/-- A request without entries that has shown the first entry only. -/
def heartbeat : AppendEntriesArgs := ⟨2, 3, 1, 1, [], 2⟩

/-- The second entry is committed although the request said nothing about it. -/
theorem unverified_tail_commits : tailed.Contiguous ∧ heartbeat.Contiguous ∧
    (handleAppendEntries ⟨0, 0⟩ heartbeat tailed).1.toOption = some ⟨2, true, 0⟩ ∧
    ¬ (handleAppendEntries ⟨0, 0⟩ heartbeat tailed).2.commitIndex ≤
      max tailed.commitIndex (min heartbeat.leaderCommit heartbeat.lastSent) := by
  refine ⟨tailed_holds.contiguous, ?_, by decide +kernel, by decide +kernel⟩
  intro j e found
  cases found

end RaftCore
end WalKv
