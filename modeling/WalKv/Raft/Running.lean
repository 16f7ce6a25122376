import WalKv.Raft.Replication

/-! What the role transitions and the two request handlers do on a running node,
one whose disk does not fail and whose timer range is not empty. Each result is
an equation for the whole call, so its callers never look inside. -/
namespace WalKv
namespace RaftCore
variable {W : Type} {core : RaftCore W} {clock : Clock} {term : Nat} {leader : Option Nat}

/-- Persists succeed, the file holds the hard state in memory, and the timer can
be armed. -/
structure Running (core : RaftCore W) : Prop where
  durable : core.hardPath.outcomes = []
  saved : core.hardPath.load = core.hard
  timed : asMillis core.electionTimeout.start < asMillis core.electionTimeout.stop

instance : Decidable core.Running :=
  decidable_of_iff (_ ∧ _ ∧ _) ⟨fun ⟨durable, saved, timed⟩ => ⟨durable, saved, timed⟩,
    fun running => ⟨running.durable, running.saved, running.timed⟩⟩

/-- The hard state replaced in memory and on disk. -/
def saveHard (hard : HardState) (core : RaftCore W) : RaftCore W :=
  { core with hard, hardPath := ⟨some hard, []⟩ }

/-- A deadline drawn from the timer range. -/
def nextDeadline (clock : Clock) (core : RaftCore W) : Nat :=
  clock.now + fromMillis (asMillis core.electionTimeout.start + clock.draw %
    (asMillis core.electionTimeout.stop - asMillis core.electionTimeout.start))

def armed (clock : Clock) (core : RaftCore W) : RaftCore W :=
  { core with electionDeadline := core.nextDeadline clock }

/-- Adopt a newer term as follower; an older or equal one changes nothing. -/
def observe (term : Nat) (leader : Option Nat) (core : RaftCore W) : RaftCore W :=
  if core.hard.currentTerm < term then
    { core.saveHard ⟨term, none⟩ with
      role := .follower, leaderId := leader, lease := core.lease.invalidate }
  else core

/-- The core at the start of a campaign. -/
def campaigning (clock : Clock) (core : RaftCore W) : RaftCore W :=
  { (core.saveHard ⟨core.hard.currentTerm + 1, some core.id⟩).armed clock with
    role := .candidate, leaderId := none }

theorem resetElectionTimer_timed
    (timed : asMillis core.electionTimeout.start < asMillis core.electionTimeout.stop) :
    resetElectionTimer clock core = (.ok (), core.armed clock) := by
  simp only [resetElectionTimer, genRange, if_pos timed]
  rfl

theorem resetElectionTimer_untimed
    (untimed : ¬ asMillis core.electionTimeout.start < asMillis core.electionTimeout.stop) :
    resetElectionTimer clock core = (.error (.panic "cannot sample empty range"), core) := by
  simp only [resetElectionTimer, genRange, if_neg untimed]

theorem becomeFollower_durable (durable : core.hardPath.outcomes = [])
    (newer : core.hard.currentTerm < term) :
    RaftCore.becomeFollower term leader core = (.ok (), core.observe term leader) := by
  simp only [RaftCore.becomeFollower, Fallible.bind_run, Fallible.get_run, Fallible.when_run,
    if_pos newer, Fallible.modify_run, RaftCore.persistHard, Fallible.part_run,
    HardFile.persist, durable, observe]
  rfl

theorem becomeCandidate_durable (durable : core.hardPath.outcomes = [])
    (timed : asMillis core.electionTimeout.start < asMillis core.electionTimeout.stop) :
    RaftCore.becomeCandidate clock core =
      (.ok ⟨core.hard.currentTerm + 1, core.id, core.lastLogIndex, core.lastLogTerm⟩,
        core.campaigning clock) := by
  simp only [RaftCore.becomeCandidate, Fallible.bind_run, Fallible.modify_run,
    RaftCore.persistHard, Fallible.part_run, HardFile.persist, durable,
    RaftCore.resetElectionTimer, genRange, if_pos timed, Fallible.get_run]
  rfl

namespace Running

theorem becomeFollower (running : core.Running) (newer : core.hard.currentTerm < term) :
    RaftCore.becomeFollower term leader core = (.ok (), core.observe term leader) :=
  becomeFollower_durable running.durable newer

theorem becomeCandidate (running : core.Running) :
    RaftCore.becomeCandidate clock core =
      (.ok ⟨core.hard.currentTerm + 1, core.id, core.lastLogIndex, core.lastLogTerm⟩,
        core.campaigning clock) :=
  becomeCandidate_durable running.durable running.timed

theorem observe (running : core.Running) (term : Nat) (leader : Option Nat) :
    (core.observe term leader).Running := by
  unfold RaftCore.observe
  split_ifs
  · exact ⟨rfl, rfl, running.timed⟩
  · exact running

theorem saveHard (running : core.Running) (hard : HardState) : (core.saveHard hard).Running :=
  ⟨rfl, rfl, running.timed⟩

end Running

theorem observe_cases (term : Nat) (leader : Option Nat) (core : RaftCore W) :
    core.hard.currentTerm < term ∧ (core.observe term leader).role = .follower ∨
      core.observe term leader = core := by
  unfold observe
  split_ifs with newer
  · exact Or.inl ⟨newer, rfl⟩
  · exact Or.inr rfl

theorem observe_term (core : RaftCore W) :
    (core.observe term leader).hard.currentTerm = max core.hard.currentTerm term := by
  unfold observe
  split_ifs with newer
  · exact (Nat.max_eq_right newer.le).symm
  · exact (Nat.max_eq_left (Nat.le_of_not_lt newer)).symm

/-- A vote is given when the log is up to date and no other vote was given. -/
def grants (args : RequestVoteArgs) (core : RaftCore W) : Bool :=
  core.logOk args && core.freeToVote args

/-- The core after giving its vote. -/
def voteFor (clock : Clock) (candidate : Nat) (core : RaftCore W) : RaftCore W :=
  (core.saveHard { core.hard with votedFor := some candidate }).armed clock

theorem Running.handleRequestVote (running : core.Running) (args : RequestVoteArgs) :
    RaftCore.handleRequestVote clock args core =
      if args.term < core.hard.currentTerm then (.ok ⟨core.hard.currentTerm, false⟩, core)
      else if (core.observe args.term none).grants args then
        (.ok ⟨args.term, true⟩, (core.observe args.term none).voteFor clock args.candidateId)
      else (.ok ⟨args.term, false⟩, core.observe args.term none) := by
  by_cases stale : args.term < core.hard.currentTerm
  · simp [RaftCore.handleRequestVote, stale]
  · have observed : (if core.hard.currentTerm < args.term then
        RaftCore.becomeFollower args.term none core else (.ok (), core)) =
          (.ok (), core.observe args.term none) := by
      split_ifs with newer
      · exact running.becomeFollower newer
      · simp [RaftCore.observe, newer]
    have reached : (core.observe args.term none).hard.currentTerm = args.term := by
      rw [observe_term]
      omega
    have running := running.observe args.term none
    revert observed reached running
    generalize core.observe args.term none = seen
    intro observed reached running
    simp only [RaftCore.handleRequestVote, Fallible.bind_run, Fallible.get_run, if_neg stale,
      Fallible.when_run, observed, Fallible.modify_run, Fallible.pure_run]
    by_cases granted : seen.grants args = true
    · rw [if_pos granted]
      simp only [grants] at granted
      simp only [granted, if_true, RaftCore.persistHard, Fallible.part_run, HardFile.persist,
        running.durable, RaftCore.resetElectionTimer, genRange, if_pos running.timed]
      rw [← reached]
      rfl
    · rw [if_neg granted]
      simp only [grants] at granted
      simp [granted, reached]

/-- Follow the sender of a request that is not out of date. -/
def recognised (args : AppendEntriesArgs) (core : RaftCore W) : RaftCore W :=
  if core.hard.currentTerm < args.term then core.observe args.term (some args.leaderId)
  else { core with role := .follower, leaderId := some args.leaderId }

theorem recognised_role (core : RaftCore W) (args : AppendEntriesArgs) :
    (core.recognised args).role = .follower := by
  unfold recognised
  split_ifs with newer
  · simp [observe, newer]
  · rfl

theorem recognised_term {args : AppendEntriesArgs} (current : core.hard.currentTerm ≤ args.term) :
    (core.recognised args).hard.currentTerm = args.term := by
  unfold recognised
  split_ifs with newer
  · rw [observe_term]
    exact Nat.max_eq_right current
  · exact Nat.le_antisymm current (Nat.le_of_not_lt newer)

theorem Running.recognised (running : core.Running) (args : AppendEntriesArgs) :
    (core.recognised args).Running := by
  unfold RaftCore.recognised
  split_ifs
  · exact running.observe _ _
  · exact ⟨running.durable, running.saved, running.timed⟩

/-- The log, the snapshot and the progress of a core. -/
def logPart (core : RaftCore W) : W × List LogEntry × SnapshotMeta × Nat × Nat :=
  (core.log, core.entries, core.snapshot, core.commitIndex, core.lastApplied)

theorem observe_logPart (term : Nat) (leader : Option Nat) (core : RaftCore W) :
    (core.observe term leader).logPart = core.logPart := by
  unfold RaftCore.observe
  split_ifs <;> rfl

theorem recognised_logPart (args : AppendEntriesArgs) (clock : Clock) (core : RaftCore W) :
    ((core.recognised args).armed clock).logPart = core.logPart := by
  unfold RaftCore.recognised
  split_ifs
  · exact observe_logPart _ _ core
  · rfl

/-- Only the log and the commit index differ. -/
def LogOnly (core core' : RaftCore W) : Prop :=
  core' = { core with
    log := core'.log, entries := core'.entries, commitIndex := core'.commitIndex }

theorem LogOnly.trans {core' core'' : RaftCore W} (first : LogOnly core core')
    (second : LogOnly core' core'') : LogOnly core core'' := by
  unfold LogOnly at *
  rw [second, first]

/-- Only the log differs, on disk and in memory. -/
def EntriesOnly (core core' : RaftCore W) : Prop :=
  core' = { core with log := core'.log, entries := core'.entries }

theorem EntriesOnly.refl (core : RaftCore W) : EntriesOnly core core := rfl

theorem EntriesOnly.trans {core' core'' : RaftCore W} (first : EntriesOnly core core')
    (second : EntriesOnly core' core'') : EntriesOnly core core'' := by
  unfold EntriesOnly at *
  rw [second, first]

theorem EntriesOnly.commitIndex {core' : RaftCore W} (only : EntriesOnly core core') :
    core'.commitIndex = core.commitIndex := by
  rw [only]

theorem EntriesOnly.logOnly {core' : RaftCore W} (only : EntriesOnly core core') :
    LogOnly core core' := by
  unfold LogOnly
  rw [only]

theorem onLog_only {α : Type} (m : Fallible Stop W α) : Fallible.Keeps EntriesOnly (onLog m) :=
  fun _ => rfl

theorem adoptCommit_eq (leaderCommit : Nat) (core : RaftCore W) :
    core.adoptCommit leaderCommit = { core with
      commitIndex := if core.commitIndex < leaderCommit then min leaderCommit core.lastLogIndex
        else core.commitIndex } := by
  unfold adoptCommit
  split_ifs <;> rfl

theorem advanceCommitIndex_cases (core : RaftCore W) : core.advanceCommitIndex = core ∨
    ∃ k, core.sortedMatches[core.quorum - 1]? = some k ∧ core.commitIndex < k ∧
      core.termAt k = some core.hard.currentTerm ∧
      core.advanceCommitIndex = { core with commitIndex := k } := by
  unfold advanceCommitIndex
  split
  · rename_i k found
    split_ifs with reached
    · exact .inr ⟨k, found, reached.1, reached.2, rfl⟩
    · exact .inl rfl
  · exact .inl rfl

/-- The commit rule moves the commit index only. -/
theorem advanceCommitIndex_eq (core : RaftCore W) : core.advanceCommitIndex =
    { core with commitIndex := core.advanceCommitIndex.commitIndex } := by
  rcases advanceCommitIndex_cases core with same | ⟨_, _, _, _, same⟩
  · rw [same]
  · rw [same]

section Reply
variable {peer lastSent : Nat} {reply : AppendEntriesReply}

theorem onAppendEntriesReply_success (leading : core.role = .leader)
    (success : reply.success = true) :
    core.onAppendEntriesReply peer lastSent reply = advanceCommitIndex { core with
      matchIndex := Function.update core.matchIndex peer (some lastSent)
      nextIndex := Function.update core.nextIndex peer (some (lastSent + 1)) } := by
  rw [onAppendEntriesReply, if_neg (by simp [leading]), if_pos success]

/-- A reply moves the indices of the peer, and then at most the commit index. -/
theorem onAppendEntriesReply_cases (peer lastSent : Nat) (reply : AppendEntriesReply)
    (core : RaftCore W) : ∃ nextIndex matchIndex,
      core.onAppendEntriesReply peer lastSent reply = { core with nextIndex, matchIndex } ∨
      core.onAppendEntriesReply peer lastSent reply =
        advanceCommitIndex { core with nextIndex, matchIndex } := by
  unfold onAppendEntriesReply
  split_ifs
  · exact ⟨_, _, .inl rfl⟩
  · exact ⟨_, _, .inr rfl⟩
  · exact ⟨_, _, .inl rfl⟩
  · exact ⟨_, _, .inl rfl⟩

/-- A leader writes down how far a peer that accepted has got. -/
theorem onAppendEntriesReply_taken (leading : core.role = .leader)
    (success : reply.success = true) :
    core.onAppendEntriesReply peer lastSent reply = { core with
      commitIndex := (core.onAppendEntriesReply peer lastSent reply).commitIndex
      matchIndex := Function.update core.matchIndex peer (some lastSent)
      nextIndex := Function.update core.nextIndex peer (some (lastSent + 1)) } := by
  rw [onAppendEntriesReply_success leading success]
  exact advanceCommitIndex_eq _

/-- A leader goes back by at least one for a peer that refused, as long as it can. -/
theorem onAppendEntriesReply_backs (leading : core.role = .leader)
    (refused : reply.success = false) : ∃ i, 1 ≤ i ∧ i ≤ max ((core.nextIndex peer).getD 1 - 1) 1 ∧
      core.onAppendEntriesReply peer lastSent reply =
        { core with nextIndex := Function.update core.nextIndex peer (some i) } := by
  rw [onAppendEntriesReply, if_neg (by simp [leading]), if_neg (by simp [refused])]
  refine ⟨_, Nat.le_max_right _ _, ?_, rfl⟩
  omega

end Reply

section Log
variable [WalOps W]

theorem truncateFrom_only (index : Nat) :
    Fallible.Keeps EntriesOnly (truncateFrom index : Method W Unit) :=
  .bind EntriesOnly.trans (fun _ => rfl) fun _ => onLog_only _

variable [Bincode]

theorem appendReplicated_only (entry : LogEntry) :
    Fallible.Keeps EntriesOnly (appendReplicated entry : Method W Unit) := by
  refine .bind EntriesOnly.trans (.lift EntriesOnly.refl _) fun _ => ?_
  exact .bind EntriesOnly.trans (onLog_only _) fun _ => fun _ => rfl

/-- Appending a command adds one entry or none. -/
theorem appendCommand_entries (command : Command) (core : RaftCore W) :
    EntriesOnly core (appendCommand command core).2 ∧
      ((appendCommand command core).2.entries = core.entries ∨
        (appendCommand command core).2.entries =
          core.entries ++ [⟨core.hard.currentTerm, core.lastLogIndex + 1, command⟩]) := by
  rw [appendCommand, Fallible.bind_ok (Fallible.get_run core)]
  split_ifs with other
  · exact ⟨rfl, .inl rfl⟩
  · rw [Fallible.bind_run, Fallible.lift_run]
    cases Bincode.serialize (⟨core.hard.currentTerm, core.lastLogIndex + 1, command⟩ : LogEntry) with
    | error error => exact ⟨rfl, .inl rfl⟩
    | ok bytes =>
      simp only [Except.mapError, Fallible.bind_run, onLog, Fallible.part_run]
      rcases WalOps.append bytes core.log with ⟨stop | index, log⟩
      · exact ⟨rfl, .inl rfl⟩
      · exact ⟨rfl, .inr rfl⟩

theorem splice_only (entries : List LogEntry) :
    Fallible.Keeps EntriesOnly (splice entries : Method W Unit) := by
  induction entries with
  | nil => exact .pure EntriesOnly.refl ()
  | cons entry rest ih =>
    refine .bind EntriesOnly.trans (.get EntriesOnly.refl) fun core => ?_
    split_ifs
    · exact ih
    · split
      · split_ifs
        · exact ih
        · refine .bind EntriesOnly.trans (truncateFrom_only _) fun _ => ?_
          exact .bind EntriesOnly.trans (appendReplicated_only entry) fun _ => ih
      · exact .bind EntriesOnly.trans (appendReplicated_only entry) fun _ => ih

theorem splice_cons (e : LogEntry) (rest : List LogEntry) (core : RaftCore W) :
    splice (e :: rest) core =
      if e.index < core.baseIndex then splice rest core
      else match core.termAt e.index with
        | some t =>
          if t = e.term then splice rest core
          else (truncateFrom e.index >>= fun _ => appendReplicated e >>= fun _ => splice rest) core
        | none => (appendReplicated e >>= fun _ => splice rest) core := by
  rw [splice, Fallible.bind_run, Fallible.get_run]
  by_cases covered : e.index < core.baseIndex
  · simp only [if_pos covered]
  · simp only [if_neg covered]
    cases core.termAt e.index with
    | none => rfl
    | some t => by_cases same : t = e.term <;> simp only [same, if_true, if_false]

/-- Storing a request changes the entries as the splice does. It stops early, or it ends with
the commit index that the new log allows. -/
theorem store_cases (args : AppendEntriesArgs) (core : RaftCore W) :
    ∃ core', EntriesOnly core core' ∧ core'.entries = (splice args.entries core).2.entries ∧
      ((∃ stop, store args core = (.error stop, core')) ∨
        (splice args.entries core).1 = .ok () ∧ store args core =
          (.ok ⟨core.hard.currentTerm, true, 0⟩, core'.adoptCommit args.leaderCommit)) := by
  have only := splice_only args.entries core
  rw [store]
  rcases spliced : splice args.entries core with ⟨stop | ⟨⟩, core₁⟩ <;> rw [spliced] at only
  · rw [Fallible.bind_error spliced]
    exact ⟨core₁, only, rfl, .inl ⟨stop, rfl⟩⟩
  have only₂ : EntriesOnly core (sync core₁).2 := only.trans (onLog_only _ core₁)
  have entries : (sync core₁).2.entries = core₁.entries := rfl
  rw [Fallible.bind_ok spliced]
  rcases synced : sync core₁ with ⟨stop | ⟨⟩, core₂⟩ <;> rw [synced] at only₂ entries
  · rw [Fallible.bind_error synced]
    exact ⟨core₂, only₂, entries, .inl ⟨stop, rfl⟩⟩
  · have only₂ : EntriesOnly core core₂ := only₂
    have hard : (adoptCommit args.leaderCommit core₂).hard = core.hard := by
      rw [adoptCommit_eq, only₂]
    refine ⟨core₂, only₂, entries, .inr ⟨rfl, ?_⟩⟩
    rw [Fallible.bind_ok synced, Fallible.modify_bind, ← hard]
    rfl

theorem store_only (args : AppendEntriesArgs) :
    Fallible.Keeps LogOnly (store args : Method W AppendEntriesReply) := by
  intro core
  obtain ⟨core', only, _, ⟨stop, ran⟩ | ⟨_, ran⟩⟩ := store_cases args core
  · rw [ran]
    exact only.logOnly
  · rw [ran, adoptCommit_eq]
    exact only.logOnly.trans rfl

theorem matchAndStore_run (args : AppendEntriesArgs) (core : RaftCore W) :
    matchAndStore args core =
      if core.lastLogIndex < args.prevLogIndex then
        (.ok (core.reject (core.lastLogIndex + 1)), core)
      else if (core.termAt args.prevLogIndex).any (· ≠ args.prevLogTerm) then
        (.ok (core.reject args.prevLogIndex), core)
      else store args core := by
  simp only [matchAndStore, Fallible.bind_run, Fallible.get_run]
  split_ifs <;> rfl

theorem handleAppendEntries_durable (durable : core.hardPath.outcomes = [])
    (timed : asMillis core.electionTimeout.start < asMillis core.electionTimeout.stop)
    (args : AppendEntriesArgs) :
    RaftCore.handleAppendEntries clock args core =
      if args.term < core.hard.currentTerm then (.ok (core.reject 0), core)
      else matchAndStore args ((core.recognised args).armed clock) := by
  by_cases stale : args.term < core.hard.currentTerm
  · simp [RaftCore.handleAppendEntries, stale]
  · have recognised : recogniseLeader args core = (.ok (), core.recognised args) := by
      unfold recogniseLeader RaftCore.recognised
      split_ifs with newer
      · exact becomeFollower_durable durable newer
      · rfl
    have timeout : (core.recognised args).electionTimeout = core.electionTimeout := by
      unfold RaftCore.recognised observe
      split_ifs <;> rfl
    simp only [RaftCore.handleAppendEntries, Fallible.bind_run, Fallible.get_run, if_neg stale,
      recognised, resetElectionTimer_timed (timeout ▸ timed)]

theorem Running.handleAppendEntries (running : core.Running) (args : AppendEntriesArgs) :
    RaftCore.handleAppendEntries clock args core =
      if args.term < core.hard.currentTerm then (.ok (core.reject 0), core)
      else matchAndStore args ((core.recognised args).armed clock) :=
  handleAppendEntries_durable running.durable running.timed args

theorem restore_ok {cfg : Config} {file : HardFile} {snapshot : SnapshotMeta} {log : W}
    (restored : restore clock cfg file snapshot log = .ok core) :
    ∃ records entries, WalOps.readAll log = .ok records ∧
      loadEntries snapshot records = .ok entries ∧
      asMillis cfg.electionTimeout.start < asMillis cfg.electionTimeout.stop ∧
      core = (assemble clock cfg file snapshot log entries).armed clock := by
  obtain ⟨records, read, restored⟩ := Except.of_bind_ok restored
  obtain ⟨entries, loaded, restored⟩ := Except.of_bind_ok restored
  refine ⟨records, entries, read, Except.of_mapError_ok loaded, ?_⟩
  by_cases timed : asMillis cfg.electionTimeout.start < asMillis cfg.electionTimeout.stop
  · rw [resetElectionTimer_timed timed] at restored
    exact ⟨timed, (Except.ok.inj restored).symm⟩
  · rw [resetElectionTimer_untimed timed] at restored
    cases restored

theorem restore_eq {cfg : Config} {file : HardFile} {snapshot : SnapshotMeta} {log : W}
    {records : List (Nat × Bytes)} {entries : List LogEntry}
    (read : WalOps.readAll log = .ok records) (loaded : loadEntries snapshot records = .ok entries)
    (timed : asMillis cfg.electionTimeout.start < asMillis cfg.electionTimeout.stop) :
    restore clock cfg file snapshot log =
      .ok ((assemble clock cfg file snapshot log entries).armed clock) := by
  simp only [restore, read, bind, Except.bind]
  rw [loaded]
  simp only [Except.mapError]
  rw [resetElectionTimer_timed timed]
  rfl

end Log
end RaftCore
end WalKv
