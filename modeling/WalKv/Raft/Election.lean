import WalKv.Raft.Core

/-! Role transitions and both sides of RequestVote. -/
namespace WalKv

structure RequestVoteArgs where
  term : Nat
  candidateId : Nat
  lastLogIndex : Nat
  lastLogTerm : Nat
  deriving DecidableEq, Repr

structure RequestVoteReply where
  term : Nat
  voteGranted : Bool
  deriving DecidableEq, Repr

namespace RaftCore
variable {W : Type}

/-- Step down. A newer term is adopted, clears the vote and is persisted before
the role changes. -/
def becomeFollower (term : Nat) (leader : Option Nat) : Method W Unit := do
  let core ← Fallible.get
  Fallible.when (core.hard.currentTerm < term) do
    Fallible.modify fun core => { core with hard := ⟨term, none⟩ }
    persistHard
  Fallible.modify fun core =>
    { core with role := .follower, leaderId := leader, lease := core.lease.invalidate }

def becomeCandidate (clock : Clock) : Method W RequestVoteArgs := do
  Fallible.modify fun core =>
    { core with
      role := .candidate
      hard := ⟨core.hard.currentTerm + 1, some core.id⟩ }
  persistHard
  Fallible.modify fun core => { core with leaderId := none }
  resetElectionTimer clock
  let core ← Fallible.get
  pure ⟨core.hard.currentTerm, core.id, core.lastLogIndex, core.lastLogTerm⟩

def becomeLeader (core : RaftCore W) : RaftCore W :=
  { core with
    role := .leader
    leaderId := some core.id
    nextIndex := fun p => if p ∈ core.peers then some (core.lastLogIndex + 1) else none
    matchIndex := fun p => if p ∈ core.peers then some 0 else none }

/-- Lexical comparison of last term and last index. -/
def logOk (core : RaftCore W) (args : RequestVoteArgs) : Bool :=
  core.lastLogTerm < args.lastLogTerm ||
    core.lastLogTerm = args.lastLogTerm && core.lastLogIndex ≤ args.lastLogIndex

def freeToVote (core : RaftCore W) (args : RequestVoteArgs) : Bool :=
  core.hard.votedFor = none || core.hard.votedFor = some args.candidateId

def handleRequestVote (clock : Clock) (args : RequestVoteArgs) : Method W RequestVoteReply := do
  let core ← Fallible.get
  if args.term < core.hard.currentTerm then
    pure ⟨core.hard.currentTerm, false⟩
  else do
    Fallible.when (core.hard.currentTerm < args.term) (becomeFollower args.term none)
    let core ← Fallible.get
    let voteGranted := core.logOk args && core.freeToVote args
    Fallible.when (voteGranted = true) do
      Fallible.modify fun core =>
        { core with hard := { core.hard with votedFor := some args.candidateId } }
      persistHard
      resetElectionTimer clock
    let core ← Fallible.get
    pure ⟨core.hard.currentTerm, voteGranted⟩

end RaftCore
end WalKv
