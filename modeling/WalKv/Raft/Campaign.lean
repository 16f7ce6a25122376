import WalKv.Raft.Backing
import WalKv.Raft.Bincode

/-! A campaign: what `start_election` makes of the replies to its vote requests while
nothing else happens on the node. -/
namespace WalKv
namespace RaftCore
variable {W : Type} {core : RaftCore W} {clock : Clock} {term votes : Nat} {l : List LogEntry}
  {replies : List (Option RequestVoteReply)}

section Log
variable [WalOps W] [Bincode]

/-- Lead, and append a no-op of the own term to commit with. -/
def winElection : Method W Unit := do
  Fallible.modify becomeLeader
  let _ ← appendCommand .noop
  sync
  Fallible.modify advanceCommitIndex

/-- The loop over the replies, in the order they come in; `none` is a call that failed.
The quorum is looked at after a granted vote only. -/
def gatherVotes (term : Nat) : Nat → List (Option RequestVoteReply) → Method W Unit
  | _, [] => pure ()
  | votes, none :: rest => gatherVotes term votes rest
  | votes, some reply :: rest => do
    let core ← Fallible.get
    if core.hard.currentTerm < reply.term then becomeFollower reply.term none
    else if core.role ≠ .candidate ∨ core.hard.currentTerm ≠ term then pure ()
    else if reply.voteGranted then
      if core.quorum ≤ votes + 1 then winElection
      else gatherVotes term (votes + 1) rest
    else gatherVotes term votes rest

/-- Campaign for the next term, starting from the own vote. -/
def startElection (clock : Clock) (replies : List (Option RequestVoteReply)) : Method W Unit := do
  let _ ← becomeCandidate clock
  let core ← Fallible.get
  gatherVotes core.hard.currentTerm 1 replies

end Log

/-- How many replies grant the vote. -/
def granted (replies : List (Option RequestVoteReply)) : Nat :=
  replies.countP (·.any (·.voteGranted))

theorem granted_lost (rest : List (Option RequestVoteReply)) : granted (none :: rest) = granted rest :=
  List.countP_cons_of_neg (by simp)

theorem granted_reply (reply : RequestVoteReply) (rest : List (Option RequestVoteReply)) :
    granted (some reply :: rest) = granted rest + if reply.voteGranted then 1 else 0 := by
  simp [granted, List.countP_cons]

section Log
variable [WalOps W] [Journal W] [Bincode]

theorem Grounded.winElection (grounded : core.Grounded l false)
    (recordable : Recordable W ⟨core.hard.currentTerm, l.length + 1, .noop⟩) :
    ∃ core', RaftCore.winElection core = (.ok (), core') ∧ core'.role = .leader ∧
      core'.hard = core.hard ∧
      core'.Grounded (l ++ [⟨core.hard.currentTerm, l.length + 1, .noop⟩]) false := by
  have elected : core.becomeLeader.Grounded l false := grounded.congr rfl rfl rfl
  have last : core.becomeLeader.lastLogIndex = l.length := elected.holds.lastLogIndex
  have leading : core.becomeLeader.role = .leader := rfl
  obtain ⟨core₁, appended, only, _, grounded₁⟩ := elected.appendReplicated rfl recordable
  obtain ⟨core₂, synced, only₂, _, grounded₂⟩ := grounded₁.sync
  have both := only.trans only₂
  have command : RaftCore.appendCommand .noop core.becomeLeader =
      (.ok ⟨core.hard.currentTerm, l.length + 1, .noop⟩, core₁) := by
    rw [appendCommand_leading leading, last]
    exact Fallible.bind_ok appended
  refine ⟨core₂.advanceCommitIndex, ?_, ?_, ?_, ?_⟩
  · rw [RaftCore.winElection, Fallible.modify_bind, Fallible.bind_ok command,
      Fallible.bind_ok synced, Fallible.modify_run]
  · rw [advanceCommitIndex_eq, both]
    rfl
  · rw [advanceCommitIndex_eq, both]
    rfl
  · rw [advanceCommitIndex_eq]
    exact grounded₂.congr rfl rfl rfl

omit [Journal W] in
theorem gatherVotes_run (role : core.role = .candidate) (below : votes < core.quorum)
    (known : ∀ reply, some reply ∈ replies → reply.term ≤ core.hard.currentTerm) :
    gatherVotes core.hard.currentTerm votes replies core =
      if core.quorum ≤ votes + granted replies then winElection core else (.ok (), core) := by
  induction replies generalizing votes with
  | nil =>
    rw [if_neg (Nat.not_le.mpr (show votes + granted [] < core.quorum from below))]
    rfl
  | cons reply rest ih =>
    have known' : ∀ reply, some reply ∈ rest → reply.term ≤ core.hard.currentTerm :=
      fun reply member => known reply (List.mem_cons_of_mem _ member)
    cases reply with
    | none => rw [gatherVotes, ih below known', granted_lost]
    | some reply =>
      have current : ¬ core.hard.currentTerm < reply.term :=
        Nat.not_lt.mpr (known reply List.mem_cons_self)
      have campaigning : ¬ (core.role ≠ .candidate ∨
          core.hard.currentTerm ≠ core.hard.currentTerm) := by simp [role]
      rw [gatherVotes, Fallible.bind_ok (Fallible.get_run core), if_neg current,
        if_neg campaigning, granted_reply]
      by_cases yes : reply.voteGranted = true
      · rw [if_pos yes, if_pos yes]
        by_cases reached : core.quorum ≤ votes + 1
        · rw [if_pos reached, if_pos (by omega)]
        · rw [if_neg reached, ih (by omega) known', Nat.add_right_comm, Nat.add_assoc]
      · rw [if_neg yes, if_neg yes, ih below known', Nat.add_zero]

omit [Journal W] in
theorem gatherVotes_loses (durable : core.hardPath.outcomes = []) (role : core.role = .candidate)
    (few : votes + granted replies < core.quorum) :
    (gatherVotes core.hard.currentTerm votes replies core).2.role ≠ .leader := by
  induction replies generalizing votes with
  | nil =>
    show core.role ≠ .leader
    simp [role]
  | cons reply rest ih =>
    cases reply with
    | none =>
      rw [granted_lost] at few
      exact ih few
    | some reply =>
      rw [granted_reply] at few
      rw [gatherVotes, Fallible.bind_ok (Fallible.get_run core)]
      split_ifs with newer stale yes reached
      · rw [becomeFollower_durable durable newer]
        simp [observe, newer]
      · show core.role ≠ .leader
        simp [role]
      · rw [if_pos yes] at few
        omega
      · rw [if_pos yes] at few
        exact ih (by omega)
      · exact ih (by omega)

/-- What a campaign is for: a quorum of votes makes the node leader of the next term, with a
no-op of that term on disk, and less than a quorum does not. -/
structure Elects (core : RaftCore W) (l : List LogEntry) (clock : Clock)
    (replies : List (Option RequestVoteReply)) : Prop where
  wins : core.quorum ≤ 1 + granted replies →
    (∀ reply, some reply ∈ replies → reply.term ≤ core.hard.currentTerm + 1) →
    ∃ core', startElection clock replies core = (.ok (), core') ∧ core'.role = .leader ∧
      core'.hard.currentTerm = core.hard.currentTerm + 1 ∧
      core'.Grounded (l ++ [⟨core.hard.currentTerm + 1, l.length + 1, .noop⟩]) false
  loses : 1 + granted replies < core.quorum →
    (startElection clock replies core).2.role ≠ .leader

omit [Journal W] in
theorem startElection_run (durable : core.hardPath.outcomes = [])
    (timed : asMillis core.electionTimeout.start < asMillis core.electionTimeout.stop) :
    startElection clock replies core =
      gatherVotes (core.hard.currentTerm + 1) 1 replies (core.campaigning clock) := by
  rw [startElection, Fallible.bind_ok (becomeCandidate_durable durable timed),
    Fallible.bind_ok (Fallible.get_run _)]
  rfl

/-- A quorum of votes elects in every cluster but that of a single node, which waits for a
reply although its own vote is a quorum. -/
theorem startElection_elects_iff (grounded : core.Grounded l false)
    (durable : core.hardPath.outcomes = [])
    (timed : asMillis core.electionTimeout.start < asMillis core.electionTimeout.stop)
    (recordable : Recordable W ⟨core.hard.currentTerm + 1, l.length + 1, .noop⟩)
    (members : core.clusterSize = core.peers.length + 1)
    (answered : replies.length = core.peers.length) :
    core.Elects l clock replies ↔ 2 ≤ core.clusterSize := by
  constructor
  · intro elects
    by_contra single
    have none : replies = [] := List.eq_nil_of_length_eq_zero (by omega)
    subst none
    have enough : core.quorum ≤ 1 + granted [] := by
      show core.clusterSize / 2 + 1 ≤ 1 + 0
      omega
    obtain ⟨core', ran, leads, _⟩ := elects.wins enough (by simp)
    rw [startElection_run durable timed] at ran
    cases ran
    cases leads
  · intro several
    have below : 1 < (core.campaigning clock).quorum := by
      show 1 < core.clusterSize / 2 + 1
      omega
    refine ⟨fun enough known => ?_, fun few => ?_⟩
    · have elected : (core.campaigning clock).Grounded l false := grounded.congr rfl rfl rfl
      obtain ⟨core', won, leads, hard, grounded'⟩ := elected.winElection recordable
      refine ⟨core', ?_, leads, congrArg HardState.currentTerm hard, grounded'⟩
      rw [startElection_run durable timed]
      exact (gatherVotes_run rfl below known).trans ((if_pos enough).trans won)
    · rw [startElection_run durable timed]
      have role : (core.campaigning clock).role = .candidate := rfl
      exact gatherVotes_loses rfl role few

end Log

/-- One of three nodes. -/
def ofThree : RaftCore FlatLog :=
  assemble ⟨0, 0⟩ ((Config.new 1).withPeers [⟨2, ""⟩, ⟨3, ""⟩]) HardFile.absent default
    FlatLog.empty []

theorem startElection_elects_iff_three :
    ofThree.Elects [] ⟨0, 0⟩ [none, some ⟨1, true⟩] ∧
      ofThree.quorum ≤ 1 + granted [none, some ⟨1, true⟩] := by
  have grounded : ofThree.Grounded [] false :=
    ⟨by decide, FlatLog.empty, rfl, by decide, by decide⟩
  exact ⟨(startElection_elects_iff grounded rfl (by decide) ⟨_, rfl, trivial⟩ rfl rfl).mpr
    (by decide), by decide⟩

/-- A node without peers. -/
def alone : RaftCore FlatLog :=
  assemble ⟨0, 0⟩ (Config.new 1) HardFile.absent default FlatLog.empty []

/-- Its own vote is a quorum, and it stays candidate. -/
theorem single_node_unelected : alone.clusterSize = alone.peers.length + 1 ∧
    alone.quorum ≤ 1 + granted [] ∧
    (startElection ⟨0, 0⟩ [] alone).1.toOption = some () ∧
    (startElection ⟨0, 0⟩ [] alone).2.role = .candidate ∧
    (startElection ⟨0, 0⟩ [] alone).2.entries = [] := by
  decide +kernel

end RaftCore
end WalKv
