import WalKv.Raft.Election

/-! Both sides of AppendEntries, the per-peer bookkeeping and the commit rule. -/
namespace WalKv

structure AppendEntriesArgs where
  term : Nat
  leaderId : Nat
  prevLogIndex : Nat
  prevLogTerm : Nat
  entries : List LogEntry
  leaderCommit : Nat
  deriving DecidableEq, Repr

structure AppendEntriesReply where
  term : Nat
  success : Bool
  conflictIndex : Nat
  deriving DecidableEq, Repr

/-- The highest index a request tells the peer to store. -/
def AppendEntriesArgs.lastSent (args : AppendEntriesArgs) : Nat :=
  args.prevLogIndex + args.entries.length

namespace RaftCore
variable {W : Type}

/-- The request for a peer at its next index. The role is not looked at. -/
def buildAppendEntries (core : RaftCore W) (peer : Nat) : AppendEntriesArgs :=
  let next := (core.nextIndex peer).getD (core.lastLogIndex + 1)
  { term := core.hard.currentTerm
    leaderId := core.id
    prevLogIndex := next - 1
    prevLogTerm := (core.termAt (next - 1)).getD core.snapshot.lastIncludedTerm
    entries := core.entriesFrom next
    leaderCommit := core.commitIndex }

def reject (core : RaftCore W) (conflictIndex : Nat) : AppendEntriesReply :=
  ⟨core.hard.currentTerm, false, conflictIndex⟩

/-- Each peer's match index and the own log end, largest first. -/
def sortedMatches (core : RaftCore W) : List Nat :=
  (core.peers.map (fun p => (core.matchIndex p).getD 0) ++ [core.lastLogIndex]).insertionSort
    (· ≥ ·)

/-- Move the commit index to what a majority has reached, if that entry is of
the current term. Position `quorum - 1` exists in every core that `restore` built. -/
def advanceCommitIndex (core : RaftCore W) : RaftCore W :=
  match core.sortedMatches[core.quorum - 1]? with
  | some candidate =>
    if core.commitIndex < candidate ∧ core.termAt candidate = some core.hard.currentTerm then
      { core with commitIndex := candidate }
    else core
  | none => core

def onAppendEntriesReply (peer : Nat) (lastSent : Nat) (reply : AppendEntriesReply)
    (core : RaftCore W) : RaftCore W :=
  if core.role ≠ .leader then core
  else if reply.success then
    advanceCommitIndex { core with
      matchIndex := Function.update core.matchIndex peer (some lastSent)
      nextIndex := Function.update core.nextIndex peer (some (lastSent + 1)) }
  else
    let current := (core.nextIndex peer).getD 1
    let hint := if 0 < reply.conflictIndex then reply.conflictIndex else current - 1
    { core with
      nextIndex := Function.update core.nextIndex peer (some (max (min hint (current - 1)) 1)) }

/-- Recognise the sender as leader of the request's term. -/
def recogniseLeader (args : AppendEntriesArgs) : Method W Unit := fun core =>
  if core.hard.currentTerm < args.term then
    becomeFollower args.term (some args.leaderId) core
  else (.ok (), { core with role := .follower, leaderId := some args.leaderId })

/-- Adopt the leader's commit index, bounded by the own log end. -/
def adoptCommit (leaderCommit : Nat) (core : RaftCore W) : RaftCore W :=
  if core.commitIndex < leaderCommit then
    { core with commitIndex := min leaderCommit core.lastLogIndex }
  else core

section Log
variable [WalOps W]

/-- Drop every entry with an index at or above the given one. -/
def truncateFrom (index : Nat) : Method W Unit := do
  Fallible.modify fun core => { core with entries := core.entries.filter (·.index < index) }
  onLog (WalOps.truncateSuffix (index - 1))

variable [Bincode]

def appendReplicated (entry : LogEntry) : Method W Unit := do
  let bytes ← Fallible.lift ((Bincode.serialize entry).mapError .err)
  let _ ← onLog (WalOps.append bytes)
  Fallible.modify fun core => { core with entries := core.entries ++ [entry] }

/-- The loop over a request's entries. -/
def splice : List LogEntry → Method W Unit
  | [] => pure ()
  | entry :: rest => do
    let core ← Fallible.get
    if entry.index < core.baseIndex then splice rest
    else
      match core.termAt entry.index with
      | some t =>
        if t = entry.term then splice rest
        else do
          truncateFrom entry.index
          appendReplicated entry
          splice rest
      | none => do
        appendReplicated entry
        splice rest

/-- Store the entries of a matching request, make them durable, and adopt the
leader's commit index. -/
def store (args : AppendEntriesArgs) : Method W AppendEntriesReply := do
  splice args.entries
  sync
  Fallible.modify (adoptCommit args.leaderCommit)
  let core ← Fallible.get
  pure ⟨core.hard.currentTerm, true, 0⟩

/-- The log-matching check; a `prevLogIndex` below the snapshot passes it. -/
def matchAndStore (args : AppendEntriesArgs) : Method W AppendEntriesReply := do
  let core ← Fallible.get
  if core.lastLogIndex < args.prevLogIndex then
    pure (core.reject (core.lastLogIndex + 1))
  else if (core.termAt args.prevLogIndex).any (· ≠ args.prevLogTerm) then
    pure (core.reject args.prevLogIndex)
  else store args

def handleAppendEntries (clock : Clock) (args : AppendEntriesArgs) :
    Method W AppendEntriesReply := do
  let core ← Fallible.get
  if args.term < core.hard.currentTerm then
    pure (core.reject 0)
  else do
    recogniseLeader args
    resetElectionTimer clock
    matchAndStore args

end Log
end RaftCore
end WalKv
