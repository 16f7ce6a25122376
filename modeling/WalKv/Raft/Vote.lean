import WalKv.Raft.Ballot
import WalKv.Raft.Bincode
import WalKv.Transition
import WalKv.Wal.Flat

/-! One vote per term. A persist may fail and leave memory ahead of the disk, and a
crash then falls back to the disk. A vote is only announced once it is in both, and
from there neither gives it up within its term. -/
namespace WalKv
namespace RaftCore
open Transition

variable {W : Type} {core core' core'' : RaftCore W} {clock : Clock}

/-- Memory moves on, and the disk is left alone or overtakes the memory there was. -/
structure Advances (core core' : RaftCore W) : Prop where
  memory : core.hard.Le core'.hard
  disk : core'.hardPath.load = core.hardPath.load ∨ core.hard.Le core'.hardPath.load

theorem Advances.unchanged (hard : core'.hard = core.hard) (file : core'.hardPath = core.hardPath) :
    Advances core core' :=
  ⟨hard ▸ .refl _, .inl (congrArg HardFile.load file)⟩

theorem Advances.refl (core : RaftCore W) : Advances core core := .unchanged rfl rfl

theorem Advances.trans (first : Advances core core') (second : Advances core' core'') :
    Advances core core'' := by
  refine ⟨first.memory.trans second.memory, ?_⟩
  rcases second.disk with same | beyond
  · rw [same]
    exact first.disk
  · exact .inr (first.memory.trans beyond)

theorem persistHard_advances (core : RaftCore W) : Advances core (persistHard core).2 := by
  refine ⟨.refl _, ?_⟩
  have saved : core.hard.Le core.hard := .refl _
  simp only [persistHard, Fallible.part_run, HardFile.persist]
  split
  · exact .inr saved
  · exact .inr saved
  · exact .inl rfl
  · exact .inr saved

theorem persistHard_ok (persisted : persistHard core = (.ok (), core')) :
    core' = { core with hardPath := core'.hardPath } ∧ core'.hardPath.load = core.hard := by
  simp only [persistHard, Fallible.part_run, HardFile.persist] at persisted
  split at persisted <;> cases persisted <;> exact ⟨rfl, rfl⟩

theorem resetElectionTimer_advances (clock : Clock) (core : RaftCore W) :
    Advances core (resetElectionTimer clock core).2 := by
  obtain ⟨deadline, same⟩ := resetElectionTimer_deadline clock core
  exact .unchanged (by rw [same]) (by rw [same])

theorem adopt_advances {hard : HardState} (newer : core.hard.Le hard) :
    Advances core { core with hard } :=
  ⟨newer, .inl rfl⟩

theorem becomeFollower_advances (term : Nat) (leader : Option Nat) (core : RaftCore W) :
    Advances core (becomeFollower term leader core).2 := by
  refine Fallible.bind_keeps Advances.trans (.refl core) ?_
  rintro _ _ ⟨⟩
  refine Fallible.bind_keeps Advances.trans ?_ fun _ _ _ => .unchanged rfl rfl
  rw [Fallible.when_run]
  split_ifs with newer
  · have newer : core.hard.Le ⟨term, none⟩ := Or.inl newer
    exact (adopt_advances newer).trans (persistHard_advances _)
  · exact .refl core

theorem becomeCandidate_advances (clock : Clock) (core : RaftCore W) :
    Advances core (becomeCandidate clock core).2 := by
  rw [becomeCandidate, Fallible.modify_bind]
  have newer : core.hard.Le ⟨core.hard.currentTerm + 1, some core.id⟩ := Or.inl (Nat.lt_succ_self _)
  have started : Advances core { core with
      role := .candidate, hard := ⟨core.hard.currentTerm + 1, some core.id⟩ } := ⟨newer, .inl rfl⟩
  refine started.trans ?_
  refine Fallible.bind_keeps Advances.trans (persistHard_advances _) fun _ t _ => ?_
  refine Fallible.bind_keeps Advances.trans (.unchanged rfl rfl) fun _ t _ => ?_
  refine Fallible.bind_keeps Advances.trans (resetElectionTimer_advances clock t) fun _ t _ => ?_
  exact .unchanged rfl rfl

theorem handleRequestVote_advances (clock : Clock) (args : RequestVoteArgs) (core : RaftCore W) :
    Advances core (handleRequestVote clock args core).2 := by
  refine Fallible.bind_keeps Advances.trans (.refl core) ?_
  rintro _ _ ⟨⟩
  split_ifs with stale
  · exact .refl core
  · refine Fallible.bind_keeps Advances.trans ?_ fun _ t _ => ?_
    · rw [Fallible.when_run]
      split_ifs
      · exact becomeFollower_advances _ _ core
      · exact .refl core
    refine Fallible.bind_keeps Advances.trans (.refl t) ?_
    rintro _ _ ⟨⟩
    refine Fallible.bind_keeps Advances.trans ?_ fun _ _ _ => .unchanged rfl rfl
    rw [Fallible.when_run]
    split_ifs with granted
    · have free := granted_le granted
      rw [Fallible.modify_bind]
      refine (adopt_advances free).trans ?_
      exact Fallible.bind_keeps Advances.trans (persistHard_advances _) fun _ t _ =>
        resetElectionTimer_advances clock t
    · exact .refl t

theorem handleAppendEntries_advances [WalOps W] [Bincode] (clock : Clock)
    (args : AppendEntriesArgs) (core : RaftCore W) :
    Advances core (handleAppendEntries clock args core).2 := by
  refine Fallible.bind_keeps Advances.trans (.refl core) ?_
  rintro _ _ ⟨⟩
  split_ifs with stale
  · exact .refl core
  · refine Fallible.bind_keeps Advances.trans ?_ fun _ t _ => ?_
    · unfold recogniseLeader
      split_ifs
      · exact becomeFollower_advances _ _ core
      · exact .unchanged rfl rfl
    refine Fallible.bind_keeps Advances.trans (resetElectionTimer_advances clock t) fun _ t _ => ?_
    have same := (matchAndStore_side args t).ballot
    exact .unchanged (congrArg Ballot.hard same) (congrArg Ballot.hardPath same)

theorem becomeFollower_ok {term : Nat} {leader : Option Nat} {a : Unit}
    (followed : becomeFollower term leader core = (.ok a, core'))
    (newer : core.hard.currentTerm < term) : core'.hard.currentTerm = term := by
  obtain ⟨_, _, ⟨⟩, followed⟩ := Fallible.of_bind_ok followed
  obtain ⟨_, adopted, ran, ended⟩ := Fallible.of_bind_ok followed
  cases ended
  rw [Fallible.when_run, if_pos newer, Fallible.modify_bind] at ran
  show adopted.hard.currentTerm = term
  rw [(persistHard_ok ran).1]

theorem resetElectionTimer_ok {a : Unit} (reset : resetElectionTimer clock core = (.ok a, core')) :
    core'.ballot = core.ballot := by
  obtain ⟨deadline, same⟩ := resetElectionTimer_deadline clock core
  rw [reset] at same
  cases same
  rfl

theorem becomeCandidate_ok {args : RequestVoteArgs}
    (started : becomeCandidate clock core = (.ok args, core')) :
    core'.hard = ⟨args.term, some args.candidateId⟩ ∧ core'.hardPath.load = core'.hard := by
  rw [becomeCandidate, Fallible.modify_bind] at started
  obtain ⟨_, written, persisted, started⟩ := Fallible.of_bind_ok started
  obtain ⟨same, saved⟩ := persistHard_ok persisted
  rw [Fallible.modify_bind] at started
  obtain ⟨_, timed, reset, ended⟩ := Fallible.of_bind_ok started
  cases ended
  have ballot := resetElectionTimer_ok reset
  have hard : core'.hard = ⟨core.hard.currentTerm + 1, some core.id⟩ := by
    rw [show core'.hard = written.hard from congrArg Ballot.hard ballot, same]
  have id : core'.id = core.id := by
    rw [show core'.id = written.id from congrArg Ballot.id ballot, same]
  have file : core'.hardPath = written.hardPath := congrArg Ballot.hardPath ballot
  exact ⟨by rw [hard, id], by rw [file, hard]; exact saved⟩

theorem handleRequestVote_ok {args : RequestVoteArgs} {reply : RequestVoteReply}
    (answered : handleRequestVote clock args core = (.ok reply, core'))
    (granted : reply.voteGranted = true) :
    core'.hard = ⟨args.term, some args.candidateId⟩ ∧ core'.hardPath.load = core'.hard := by
  obtain ⟨_, _, ⟨⟩, answered⟩ := Fallible.of_bind_ok answered
  split_ifs at answered with stale
  · cases answered
    cases granted
  · obtain ⟨_, seen, observed, answered⟩ := Fallible.of_bind_ok answered
    obtain ⟨_, _, ⟨⟩, answered⟩ := Fallible.of_bind_ok answered
    obtain ⟨_, voted, ran, ended⟩ := Fallible.of_bind_ok answered
    cases ended
    have term : seen.hard.currentTerm = args.term := by
      rw [Fallible.when_run] at observed
      split_ifs at observed with newer
      · exact becomeFollower_ok observed newer
      · cases observed
        omega
    rw [Fallible.when_run, if_pos granted, Fallible.modify_bind] at ran
    obtain ⟨_, written, persisted, reset⟩ := Fallible.of_bind_ok ran
    obtain ⟨same, saved⟩ := persistHard_ok persisted
    have ballot := resetElectionTimer_ok reset
    have hard : core'.hard = ⟨args.term, some args.candidateId⟩ := by
      rw [show core'.hard = written.hard from congrArg Ballot.hard ballot, same, ← term]
    have file : core'.hardPath = written.hardPath := congrArg Ballot.hardPath ballot
    exact ⟨hard, by rw [file, saved, hard, ← term]⟩

end RaftCore

/-- Votes as pairs of term and candidate. While its term lasts a vote is on record. -/
def HardState.Honors (hard : HardState) (votes : List (Nat × Nat)) : Prop :=
  ∀ vote ∈ votes, vote.1 < hard.currentTerm ∨
    vote.1 = hard.currentTerm ∧ hard.votedFor = some vote.2

theorem HardState.Honors.le {a b : HardState} {votes : List (Nat × Nat)} (honors : a.Honors votes)
    (grown : a.Le b) : b.Honors votes :=
  fun vote inside => grown.vote (honors vote inside)

theorem HardState.Honors.cons {hard : HardState} {votes : List (Nat × Nat)} {term candidate : Nat}
    (honors : hard.Honors votes) (now : hard = ⟨term, some candidate⟩) :
    hard.Honors ((term, candidate) :: votes) := by
  intro vote inside
  rcases List.mem_cons.mp inside with rfl | old
  · exact .inr (now ▸ ⟨rfl, rfl⟩)
  · exact honors vote old

/-- A node and the votes it has announced, its own candidacies among them. -/
structure Voter (W : Type) where
  core : RaftCore W
  votes : List (Nat × Nat)

namespace Voter
open RaftCore Transition

/-- A call of one of the methods that read or write the vote, or a crash, after which the
node is restored from its hard-state file and any snapshot and log. -/
inductive Call (W : Type) where
  | requestVote (clock : Clock) (args : RequestVoteArgs)
  | appendEntries (clock : Clock) (args : AppendEntriesArgs)
  | candidate (clock : Clock)
  | follower (term : Nat) (leader : Option Nat)
  | crash (clock : Clock) (cfg : Config) (snapshot : SnapshotMeta) (log : W)

section Run
variable {W : Type} [WalOps W] [Bincode] {v v' : Voter W}

/-- A call that stops announces nothing, and what it did to the node stays. -/
def step (v : Voter W) : Call W → Option (Voter W)
  | .requestVote clock args =>
    match handleRequestVote clock args v.core with
    | (.ok reply, core) => some
      { core, votes := if reply.voteGranted then (args.term, args.candidateId) :: v.votes else v.votes }
    | (.error _, core) => some { v with core }
  | .appendEntries clock args => some { v with core := (handleAppendEntries clock args v.core).2 }
  | .candidate clock =>
    match becomeCandidate clock v.core with
    | (.ok args, core) => some { core, votes := (args.term, args.candidateId) :: v.votes }
    | (.error _, core) => some { v with core }
  | .follower term leader => some { v with core := (becomeFollower term leader v.core).2 }
  | .crash clock cfg snapshot log =>
    match restore clock cfg v.core.hardPath snapshot log with
    | .ok core => some { v with core }
    | .error _ => none

/-- Memory and disk remember the votes, and no two of them differ in a term. -/
structure Faithful (v : Voter W) : Prop where
  memory : v.core.hard.Honors v.votes
  disk : v.core.hardPath.load.Honors v.votes
  single : ∀ term a b, (term, a) ∈ v.votes → (term, b) ∈ v.votes → a = b

namespace Faithful

omit [WalOps W] [Bincode] in
theorem advance (faithful : v.Faithful) {core : RaftCore W} (advances : Advances v.core core) :
    (⟨core, v.votes⟩ : Voter W).Faithful := by
  refine ⟨faithful.memory.le advances.memory, ?_, faithful.single⟩
  show core.hardPath.load.Honors v.votes
  rcases advances.disk with same | beyond
  · rw [same]
    exact faithful.disk
  · exact faithful.memory.le beyond

omit [WalOps W] [Bincode] in
theorem announce (faithful : v.Faithful) {term candidate : Nat}
    (voted : v.core.hard = ⟨term, some candidate⟩) (saved : v.core.hardPath.load = v.core.hard) :
    (⟨v.core, (term, candidate) :: v.votes⟩ : Voter W).Faithful := by
  have agreed : ∀ a, (term, a) ∈ v.votes → a = candidate := by
    intro a inside
    rcases faithful.memory _ inside with past | ⟨_, record⟩
    · rw [voted] at past
      exact absurd past (Nat.lt_irrefl _)
    · rw [voted] at record
      exact (Option.some.inj record).symm
  refine ⟨faithful.memory.cons voted, faithful.disk.cons (saved.trans voted), ?_⟩
  intro t a b first second
  rcases List.mem_cons.mp first with same | old <;> rcases List.mem_cons.mp second with same' | old'
  · cases same
    cases same'
    rfl
  · cases same
    exact (agreed b old').symm
  · cases same'
    exact agreed a old
  · exact faithful.single t a b old old'

theorem step (faithful : v.Faithful) {call : Call W} (stepped : v.step call = some v') :
    v'.Faithful := by
  cases call with
  | requestVote clock args =>
    have advances := handleRequestVote_advances clock args v.core
    simp only [Voter.step] at stepped
    rcases ran : handleRequestVote clock args v.core with ⟨stop | reply, core⟩ <;>
      rw [ran] at stepped advances <;> cases stepped
    · exact faithful.advance advances
    · split_ifs with granted
      · obtain ⟨voted, saved⟩ := handleRequestVote_ok ran granted
        exact (faithful.advance advances).announce voted saved
      · exact faithful.advance advances
  | appendEntries clock args =>
    cases stepped
    exact faithful.advance (handleAppendEntries_advances clock args v.core)
  | candidate clock =>
    have advances := becomeCandidate_advances clock v.core
    simp only [Voter.step] at stepped
    rcases ran : becomeCandidate clock v.core with ⟨stop | args, core⟩ <;>
      rw [ran] at stepped advances <;> cases stepped
    · exact faithful.advance advances
    · obtain ⟨voted, saved⟩ := becomeCandidate_ok ran
      exact (faithful.advance advances).announce voted saved
  | follower term leader =>
    cases stepped
    exact faithful.advance (becomeFollower_advances term leader v.core)
  | crash clock cfg snapshot log =>
    simp only [Voter.step] at stepped
    rcases restored : restore clock cfg v.core.hardPath snapshot log with stop | core <;>
      rw [restored] at stepped <;> cases stepped
    obtain ⟨_, _, _, _, _, rfl⟩ := restore_ok restored
    exact ⟨faithful.disk, faithful.disk, faithful.single⟩

end Faithful

/-- Through any calls, failed persists and crashes a node votes for at most one
candidate in each term. -/
theorem one_vote_per_term {core : RaftCore W}
    (run : Reaches step (fun _ _ => True) ⟨core, []⟩ v) (term a b : Nat)
    (first : (term, a) ∈ v.votes) (second : (term, b) ∈ v.votes) : a = b := by
  have start : (⟨core, []⟩ : Voter W).Faithful := ⟨nofun, nofun, nofun⟩
  have faithful := run.invariant start fun before _ stepped => before.step stepped
  exact faithful.single term a b first second

end Run

/-- A node of three whose second persist fails. -/
def stumbling : RaftCore FlatLog :=
  assemble ⟨0, 0⟩ ((Config.new 1).withPeers [⟨2, ""⟩, ⟨3, ""⟩]) ⟨none, [.ok, .errOld]⟩ default
    FlatLog.empty []

/-- Its vote for node 2 is lost with the failed persist. After a crash it votes for
node 3, and after another one for node 3 again. -/
theorem one_vote_per_term_crashing : ∃ v, Reaches step (fun _ _ => True) ⟨stumbling, []⟩ v ∧
    v.votes = [(1, 3), (1, 3)] ∧ ∀ a b, (1, a) ∈ v.votes → (1, b) ∈ v.votes → a = b := by
  let again : Call FlatLog :=
    .crash ⟨0, 0⟩ ((Config.new 1).withPeers [⟨2, ""⟩, ⟨3, ""⟩]) default FlatLog.empty
  have ran : ((execute step (fun _ _ => True) ⟨stumbling, []⟩
      [.requestVote ⟨0, 0⟩ ⟨1, 2, 0, 0⟩, again, .requestVote ⟨0, 0⟩ ⟨1, 3, 0, 0⟩, again,
        .requestVote ⟨0, 0⟩ ⟨1, 2, 0, 0⟩, .requestVote ⟨0, 0⟩ ⟨1, 3, 0, 0⟩]).any
      fun v => decide (v.votes = [(1, 3), (1, 3)])) = true := by
    decide +kernel
  obtain ⟨v, reached, shown⟩ := execute_shows ran
  exact ⟨v, reached, of_decide_eq_true shown, one_vote_per_term reached 1⟩

end Voter
end WalKv
