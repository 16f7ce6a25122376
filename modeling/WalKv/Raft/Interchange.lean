import WalKv.Raft.Backing
import WalKv.Raft.Ballot

/-! Logs that stand for the same entries are interchangeable. A core never looks into its
write-ahead log except through the operations of the log, so two cores that differ only in their
logs return the same from every call and again differ only there. -/
namespace WalKv
namespace RaftCore
variable {V W : Type}

/-- The same core on another log. -/
def on (core : RaftCore V) (log : W) : RaftCore W where
  id := core.id
  peers := core.peers
  clusterSize := core.clusterSize
  electionTimeout := core.electionTimeout
  hard := core.hard
  hardPath := core.hardPath
  log
  entries := core.entries
  snapshot := core.snapshot
  role := core.role
  commitIndex := core.commitIndex
  lastApplied := core.lastApplied
  leaderId := core.leaderId
  electionDeadline := core.electionDeadline
  nextIndex := core.nextIndex
  matchIndex := core.matchIndex
  lease := core.lease

section Oblivious
variable {core : RaftCore V} {log : W} {clock : Clock} {term : Nat}

theorem Running.on (running : core.Running) : (core.on log).Running :=
  ⟨running.durable, running.saved, running.timed⟩

theorem observe_on (core : RaftCore V) (log : W) (term : Nat) (leader : Option Nat) :
    (core.on log).observe term leader = (core.observe term leader).on log := by
  by_cases newer : core.hard.currentTerm < term
  · have newer' : (core.on log).hard.currentTerm < term := newer
    simp only [observe, if_pos newer, if_pos newer']
    rfl
  · have newer' : ¬ (core.on log).hard.currentTerm < term := newer
    simp only [observe, if_neg newer, if_neg newer']

theorem recognised_on (core : RaftCore V) (log : W) (args : AppendEntriesArgs) :
    (core.on log).recognised args = (core.recognised args).on log := by
  unfold recognised
  by_cases newer : core.hard.currentTerm < args.term
  · rw [if_pos newer, if_pos (show (core.on log).hard.currentTerm < args.term from newer), observe_on]
  · rw [if_neg newer, if_neg (show ¬ (core.on log).hard.currentTerm < args.term from newer)]
    rfl

/-- A call that leaves the log alone, on two logs. -/
def Oblivious {α : Type} (onV : Method V α) (onW : Method W α) (core : RaftCore V) (log : W) : Prop :=
  onW (core.on log) = ((onV core).1, (onV core).2.on log)

theorem becomeCandidate_on (running : core.Running) :
    Oblivious (becomeCandidate clock) (becomeCandidate clock) core log := by
  rw [Oblivious, running.becomeCandidate, running.on.becomeCandidate]
  rfl

theorem becomeFollower_on (running : core.Running) (newer : core.hard.currentTerm < term)
    (leader : Option Nat) :
    Oblivious (becomeFollower term leader) (becomeFollower term leader) core log := by
  have newer' : (core.on log).hard.currentTerm < term := newer
  rw [Oblivious, running.becomeFollower newer, running.on.becomeFollower newer', observe_on]

theorem handleRequestVote_on (running : core.Running) (args : RequestVoteArgs) :
    Oblivious (handleRequestVote clock args) (handleRequestVote clock args) core log := by
  rw [Oblivious, running.handleRequestVote, running.on.handleRequestVote, observe_on]
  by_cases stale : args.term < core.hard.currentTerm
  · have stale' : args.term < (core.on log).hard.currentTerm := stale
    simp only [if_pos stale, if_pos stale']
    rfl
  · have stale' : ¬ args.term < (core.on log).hard.currentTerm := stale
    have same : ((core.observe args.term none).on log).grants args =
        (core.observe args.term none).grants args := rfl
    simp only [if_neg stale, if_neg stale', same]
    split_ifs <;> rfl

theorem advanceCommitIndex_on (core : RaftCore V) (log : W) :
    (core.on log).advanceCommitIndex = core.advanceCommitIndex.on log := by
  have same : (core.on log).sortedMatches[(core.on log).quorum - 1]? =
      core.sortedMatches[core.quorum - 1]? := rfl
  unfold advanceCommitIndex
  rw [same]
  rcases core.sortedMatches[core.quorum - 1]? with _ | candidate
  · rfl
  · simp only
    by_cases moves : core.commitIndex < candidate ∧ core.termAt candidate = some core.hard.currentTerm
    · rw [if_pos moves, if_pos (show (core.on log).commitIndex < candidate ∧
        (core.on log).termAt candidate = some (core.on log).hard.currentTerm from moves)]
      rfl
    · rw [if_neg moves, if_neg (show ¬ ((core.on log).commitIndex < candidate ∧
        (core.on log).termAt candidate = some (core.on log).hard.currentTerm) from moves)]

theorem onAppendEntriesReply_on (core : RaftCore V) (log : W) (peer lastSent : Nat)
    (reply : AppendEntriesReply) : (core.on log).onAppendEntriesReply peer lastSent reply =
      (core.onAppendEntriesReply peer lastSent reply).on log := by
  unfold onAppendEntriesReply
  by_cases leads : core.role ≠ .leader
  · rw [if_pos leads, if_pos (show (core.on log).role ≠ .leader from leads)]
  · rw [if_neg leads, if_neg (show ¬ (core.on log).role ≠ .leader from leads)]
    split_ifs with success
    · exact advanceCommitIndex_on { core with
        matchIndex := Function.update core.matchIndex peer (some lastSent)
        nextIndex := Function.update core.nextIndex peer (some (lastSent + 1)) } log
    · rfl
    · rfl

theorem takeLoop_on (fuel : Nat) (core : RaftCore V) (log : W) :
    takeLoop fuel (core.on log) = ((takeLoop fuel core).1, (takeLoop fuel core).2.on log) := by
  induction fuel generalizing core with
  | zero => rfl
  | succ fuel ih =>
    have same : (core.on log).entryAt ((core.on log).lastApplied + 1) =
        core.entryAt (core.lastApplied + 1) := rfl
    simp only [takeLoop, same]
    rcases core.entryAt (core.lastApplied + 1) with _ | entry
    · rfl
    · have later := ih { core with lastApplied := core.lastApplied + 1 }
      have moved : ({ core.on log with lastApplied := (core.on log).lastApplied + 1 } : RaftCore W) =
        ({ core with lastApplied := core.lastApplied + 1 } : RaftCore V).on log := rfl
      simp only [moved, later]

end Oblivious

section Logs
variable [WalOps V] [WalOps W] [Bincode]

/-- Append and sync as leader, then try to commit. -/
def appendLeading (command : Command) : Method W LogEntry := do
  let entry ← appendCommand command
  sync
  Fallible.modify advanceCommitIndex
  pure entry

variable [Journal V] [Journal W] {core core' : RaftCore V} {log : W} {real' : RaftCore W}
  {l l' : List LogEntry} {clock : Clock}

/-- The log of the core and another one stand for the same entries, all of them synced. -/
def Alike (core : RaftCore V) (log : W) : Prop :=
  ∃ l, core.Grounded l false ∧ (core.on log).Grounded l false

theorem Alike.congr (alike : Alike core log) (snapshot : core'.snapshot = core.snapshot)
    (entries : core'.entries = core.entries) (same : core'.log = core.log) : Alike core' log := by
  obtain ⟨l, grounded, grounded'⟩ := alike
  exact ⟨l, grounded.congr snapshot entries same, grounded'.congr snapshot entries rfl⟩

theorem Alike.keep (alike : Alike core log) (same : core'.logPart = core.logPart) :
    Alike core' log := by
  simp only [logPart, Prod.mk.injEq] at same
  obtain ⟨sameLog, entries, snapshot, _⟩ := same
  exact alike.congr snapshot entries sameLog

omit [WalOps V] [WalOps W] [Bincode] [Journal V] [Journal W] in
/-- Two cores that stand for the same entries differ only in their logs, if they did before a call
that changes only what belongs to the log. -/
theorem on_of_holds (flat : core' = { core with
      log := core'.log, entries := core'.entries, commitIndex := core'.commitIndex
      snapshot := core'.snapshot })
    (real : real' = { core.on log with
      log := real'.log, entries := real'.entries, commitIndex := real'.commitIndex
      snapshot := real'.snapshot })
    (holds : core'.Holds l) (holds' : real'.Holds l) (snapshot : real'.snapshot = core'.snapshot)
    (commit : real'.commitIndex = core'.commitIndex) : real' = core'.on real'.log := by
  have entries : real'.entries = core'.entries := by
    rw [holds.entries, holds'.entries, snapshot]
  calc real' = _ := real
    _ = ({ core with
      log := core'.log, entries := core'.entries, commitIndex := core'.commitIndex
      snapshot := core'.snapshot } : RaftCore V).on real'.log := by
        rw [entries, commit, snapshot]
        rfl
    _ = core'.on real'.log := congrArg (fun core => RaftCore.on core real'.log) flat.symm

/-- A call ends the same way on both logs, and they stand for the same entries again. -/
def Matches {α : Type} (onV : Except Stop α × RaftCore V) (onW : Except Stop α × RaftCore W) : Prop :=
  ∃ log', onW = (onV.1, onV.2.on log') ∧ Alike onV.2 log'

theorem Alike.oblivious {α : Type} {onV : Method V α} {onW : Method W α} (alike : Alike core log)
    (oblivious : Oblivious onV onW core log) (same : (onV core).2.logPart = core.logPart) :
    Matches (onV core) (onW (core.on log)) :=
  ⟨log, oblivious, alike.keep same⟩

theorem matches_of_grounded {α : Type} {result : Except Stop α} (only : LogOnly core core')
    (only' : LogOnly (core.on log) real') (grounded : core'.Grounded l false)
    (grounded' : real'.Grounded l false) (commit : real'.commitIndex = core'.commitIndex) :
    Matches (result, core') (result, real') := by
  have snapshot : core'.snapshot = core.snapshot := by rw [only]
  have snapshot' : real'.snapshot = core.snapshot := by rw [only']; rfl
  have flat : core' = { core with
      log := core'.log, entries := core'.entries, commitIndex := core'.commitIndex
      snapshot := core'.snapshot } := by
    rw [snapshot]
    exact only
  have real : real' = { core.on log with
      log := real'.log, entries := real'.entries, commitIndex := real'.commitIndex
      snapshot := real'.snapshot } := by
    rw [snapshot']
    exact only'
  have same := on_of_holds flat real grounded.holds grounded'.holds (snapshot'.trans snapshot.symm)
    commit
  exact ⟨real'.log, congrArg _ same, l, grounded, same ▸ grounded'⟩

omit [WalOps V] [Journal V] in
theorem Grounded.appendLeading {core : RaftCore W} {command : Command} {e : LogEntry} {bytes : Bytes}
    (grounded : core.Grounded l false) (leading : core.role = .leader)
    (made : e = ⟨core.hard.currentTerm, l.length + 1, command⟩)
    (encoded : Bincode.serialize e = .ok bytes) (fits : Journal.Fits W bytes) :
    ∃ core', RaftCore.appendLeading command core = (.ok e, core'.advanceCommitIndex) ∧ LogOnly core core' ∧
      core'.commitIndex = core.commitIndex ∧ core'.Grounded (l ++ [e]) false := by
  have same : RaftCore.appendCommand command core =
      (RaftCore.appendReplicated e >>= fun _ => pure e) core := by
    rw [appendCommand_leading leading, grounded.holds.lastLogIndex, ← made]
  obtain ⟨core₁, appended, only, commit, grounded₁⟩ :=
    grounded.appendReplicated (by rw [made]) ⟨bytes, encoded, fits⟩
  obtain ⟨core₂, synced, only₂, commit₂, grounded₂⟩ := grounded₁.sync
  refine ⟨core₂, ?_, only.trans only₂, commit₂.trans commit, grounded₂⟩
  have ran : RaftCore.appendCommand command core = (.ok e, core₁) := by
    rw [same, Fallible.bind_ok appended]
    rfl
  rw [RaftCore.appendLeading, Fallible.bind_ok ran, Fallible.bind_ok synced, Fallible.modify_bind]
  rfl

theorem Alike.appendLeading (alike : Alike core log) {command : Command}
    (fits : ∀ bytes, Bincode.serialize
        ⟨core.hard.currentTerm, core.lastLogIndex + 1, command⟩ = .ok bytes →
      Journal.Fits V bytes ∧ Journal.Fits W bytes) :
    Matches (RaftCore.appendLeading command core)
      (RaftCore.appendLeading command (core.on log)) := by
  have stands := alike
  obtain ⟨l, grounded, grounded'⟩ := stands
  by_cases leading : core.role = .leader
  · rw [grounded.holds.lastLogIndex] at fits
    cases encoded : Bincode.serialize (⟨core.hard.currentTerm, l.length + 1, command⟩ : LogEntry) with
    | error error =>
      have refused {U : Type} [WalOps U] {core : RaftCore U} (leading : core.role = .leader)
          (last : core.lastLogIndex = l.length) (encoded : Bincode.serialize
            (⟨core.hard.currentTerm, l.length + 1, command⟩ : LogEntry) = .error error) :
          RaftCore.appendLeading command core = (.error (.err error), core) := by
        have stopped : appendCommand command core = (.error (.err error), core) := by
          rw [appendCommand_leading leading, last, RaftCore.appendReplicated, encoded]
          rfl
        rw [RaftCore.appendLeading, Fallible.bind_error stopped]
      have leading' : (core.on log).role = .leader := leading
      rw [refused leading grounded.holds.lastLogIndex encoded,
        refused leading' grounded'.holds.lastLogIndex encoded]
      exact ⟨log, rfl, alike⟩
    | ok bytes =>
      obtain ⟨core₁, ran, only, commit, grounded₁⟩ :=
        grounded.appendLeading leading rfl encoded (fits bytes encoded).1
      obtain ⟨real₁, ran', only', commit', grounded₁'⟩ :=
        grounded'.appendLeading leading rfl encoded (fits bytes encoded).2
      have same : Matches ((.ok ⟨core.hard.currentTerm, l.length + 1, command⟩ : Except Stop LogEntry),
          core₁) (.ok ⟨core.hard.currentTerm, l.length + 1, command⟩, real₁) :=
        matches_of_grounded only only' grounded₁ grounded₁' (commit'.trans commit.symm)
      obtain ⟨log', moved, alike'⟩ := same
      have moved : real₁ = core₁.on log' := congrArg Prod.snd moved
      rw [ran, show RaftCore.appendLeading command (core.on log) = _ from ran', moved,
        advanceCommitIndex_on]
      refine ⟨log', rfl, ?_⟩
      rw [advanceCommitIndex_eq]
      exact alike'.congr rfl rfl rfl
  · have refused {U : Type} [WalOps U] {core : RaftCore U} (leading : core.role ≠ .leader) :
        RaftCore.appendLeading command core =
          (.error (.err (.raft "only the leader may append commands")), core) := by
      simp [RaftCore.appendLeading, appendCommand, leading]
    rw [refused leading, refused (show (core.on log).role ≠ .leader from leading)]
    exact ⟨log, rfl, alike⟩

theorem Alike.store (alike : Alike core log) {args : AppendEntriesArgs}
    (reach : args.prevLogIndex ≤ core.lastLogIndex)
    (contiguous : ∀ j e, args.entries[j]? = some e → e.index = args.prevLogIndex + j + 1)
    (recordable : ∀ e ∈ args.entries, Recordable V e ∧ Recordable W e) :
    Matches (RaftCore.store args core) (RaftCore.store args (core.on log)) := by
  obtain ⟨l, grounded, grounded'⟩ := alike
  rw [grounded.holds.lastLogIndex] at reach
  obtain ⟨core', stored, only, after, commit⟩ :=
    grounded.store reach contiguous (fun e member => (recordable e member).1) rfl
  obtain ⟨real', stored', only', after', commit'⟩ :=
    grounded'.store reach contiguous (fun e member => (recordable e member).2) rfl
  rw [stored, show RaftCore.store args (core.on log) = _ from stored']
  exact matches_of_grounded only only' after after' (commit'.trans commit.symm)

theorem Alike.handleAppendEntries (alike : Alike core log) (running : core.Running)
    {args : AppendEntriesArgs}
    (contiguous : ∀ j e, args.entries[j]? = some e → e.index = args.prevLogIndex + j + 1)
    (recordable : ∀ e ∈ args.entries, Recordable V e ∧ Recordable W e) :
    Matches (RaftCore.handleAppendEntries clock args core)
      (RaftCore.handleAppendEntries clock args (core.on log)) := by
  rw [running.handleAppendEntries, running.on.handleAppendEntries, recognised_on]
  by_cases stale : args.term < core.hard.currentTerm
  · rw [if_pos stale, if_pos (show args.term < (core.on log).hard.currentTerm from stale)]
    exact ⟨log, rfl, alike⟩
  · rw [if_neg stale, if_neg (show ¬ args.term < (core.on log).hard.currentTerm from stale)]
    have seen := alike.keep (recognised_logPart args clock core)
    show Matches (matchAndStore args ((core.recognised args).armed clock))
      (matchAndStore args (((core.recognised args).armed clock).on log))
    revert seen
    generalize (core.recognised args).armed clock = core
    intro seen
    rw [matchAndStore_run, matchAndStore_run]
    by_cases short : core.lastLogIndex < args.prevLogIndex
    · rw [if_pos short, if_pos (show (core.on log).lastLogIndex < args.prevLogIndex from short)]
      exact ⟨log, rfl, seen⟩
    · rw [if_neg short, if_neg (show ¬ (core.on log).lastLogIndex < args.prevLogIndex from short)]
      by_cases differs : (core.termAt args.prevLogIndex).any (· ≠ args.prevLogTerm) = true
      · rw [if_pos differs, if_pos (show ((core.on log).termAt args.prevLogIndex).any
          (· ≠ args.prevLogTerm) = true from differs)]
        exact ⟨log, rfl, seen⟩
      · rw [if_neg differs, if_neg (show ¬ ((core.on log).termAt args.prevLogIndex).any
          (· ≠ args.prevLogTerm) = true from differs)]
        exact seen.store (Nat.le_of_not_lt short) contiguous recordable

/-- Compaction up to an index of the log that the snapshot says the right term of. -/
theorem Alike.compact (alike : Alike core log) {index : Nat} (within : index ≤ core.lastLogIndex) :
    Matches (RaftCore.compact ⟨index, (core.termAt index).getD 0⟩ core)
      (RaftCore.compact ⟨index, (core.termAt index).getD 0⟩ (core.on log)) := by
  have stands := alike
  obtain ⟨l, grounded, grounded'⟩ := stands
  by_cases newer : core.snapshot.lastIncludedIndex < index
  · rw [grounded.holds.lastLogIndex] at within
    have stamp : (core.termAt index).getD 0 = Consensus.termAt l index := by
      rw [grounded.holds.termAt newer.le within]
      rfl
    rw [stamp]
    obtain ⟨core', ran, flat, snapshot, after⟩ := grounded.compact newer within
    obtain ⟨real', ran', real, snapshot', after'⟩ := grounded'.compact newer within
    have commit : core'.commitIndex = core.commitIndex := by rw [flat]
    have commit' : real'.commitIndex = core.commitIndex := by rw [real]; rfl
    have flat' : core' = { core with
        log := core'.log, entries := core'.entries, commitIndex := core'.commitIndex
        snapshot := core'.snapshot } := by
      rw [commit]
      exact flat
    have real'' : real' = { core.on log with
        log := real'.log, entries := real'.entries, commitIndex := real'.commitIndex
        snapshot := real'.snapshot } := by
      rw [commit']
      exact real
    have same := on_of_holds flat' real'' after.holds after'.holds (snapshot'.trans snapshot.symm)
      (commit'.trans commit.symm)
    rw [ran, show RaftCore.compact _ (core.on log) = _ from ran']
    exact ⟨real'.log, congrArg _ same, l, after, same ▸ after'⟩
  · have idle : RaftCore.compact ⟨index, (core.termAt index).getD 0⟩ (core.on log) =
        (.ok (), core.on log) := compact_idle newer
    rw [compact_idle newer, idle]
    exact ⟨log, rfl, alike⟩

end Logs
end RaftCore
end WalKv
