import WalKv.Raft.State
import Mathlib.Logic.Function.Basic

/-! The passive core: all Raft state of one node, its log lookups, and the
methods that append, persist, hand out committed entries and compact. Debug
assertions are compiled out. Integers are unbounded. -/
namespace WalKv

/-- `HashMap<NodeId, LogIndex>`. -/
abbrev IndexMap := Nat → Option Nat

structure LeaderLease where
  duration : Nat
  expiry : Option Nat
  deriving DecidableEq, Repr

namespace LeaderLease

def new (duration : Nat) : LeaderLease := ⟨duration, none⟩

def renew (now : Nat) (lease : LeaderLease) : LeaderLease :=
  { lease with expiry := some (now + lease.duration) }

def isValid (now : Nat) (lease : LeaderLease) : Bool :=
  lease.expiry.any (now < ·)

def invalidate (lease : LeaderLease) : LeaderLease := { lease with expiry := none }

end LeaderLease

structure RaftCore (W : Type) where
  id : Nat
  peers : List Nat
  clusterSize : Nat
  electionTimeout : TimeoutRange
  hard : HardState
  hardPath : HardFile
  log : W
  /-- Every entry above the snapshot. -/
  entries : List LogEntry
  snapshot : SnapshotMeta
  role : Role
  commitIndex : Nat
  lastApplied : Nat
  leaderId : Option Nat
  electionDeadline : Nat
  nextIndex : IndexMap
  matchIndex : IndexMap
  lease : LeaderLease

/-- A method of the core that may return an error or panic. -/
abbrev Method (W α : Type) := Fallible Stop (RaftCore W) α

namespace RaftCore
variable {W : Type}

def isLeader (core : RaftCore W) : Bool := core.role = .leader

def quorum (core : RaftCore W) : Nat := core.clusterSize / 2 + 1

def baseIndex (core : RaftCore W) : Nat := core.snapshot.lastIncludedIndex + 1

def lastLogIndex (core : RaftCore W) : Nat :=
  match core.entries.getLast? with
  | some e => e.index
  | none => core.snapshot.lastIncludedIndex

def lastLogTerm (core : RaftCore W) : Nat :=
  match core.entries.getLast? with
  | some e => e.term
  | none => core.snapshot.lastIncludedTerm

def termAt (core : RaftCore W) (index : Nat) : Option Nat :=
  if index = core.snapshot.lastIncludedIndex then some core.snapshot.lastIncludedTerm
  else if index < core.baseIndex then none
  else core.entries[index - core.baseIndex]?.map LogEntry.term

def entryAt (core : RaftCore W) (index : Nat) : Option LogEntry :=
  if index < core.baseIndex then none else core.entries[index - core.baseIndex]?

/-- A peer that needs compacted entries gets everything still in memory. -/
def entriesFrom (core : RaftCore W) (from' : Nat) : List LogEntry :=
  if from' < core.baseIndex then core.entries else core.entries.drop (from' - core.baseIndex)

def persistHard : Method W Unit := fun core =>
  Fallible.part RaftCore.hardPath (fun file core => { core with hardPath := file })
    (HardFile.persist core.hard) core

/-- Run an operation of the write-ahead log. -/
def onLog {α : Type} (m : Fallible Stop W α) : Method W α :=
  Fallible.part RaftCore.log (fun log core => { core with log }) m

/-- Arm the timer with a fresh random deadline; panics on an empty range. -/
def resetElectionTimer (clock : Clock) : Method W Unit := fun core =>
  match genRange (asMillis core.electionTimeout.start)
      (asMillis core.electionTimeout.stop) clock with
  | some ms => (.ok (), { core with electionDeadline := clock.now + fromMillis ms })
  | none => (.error (.panic "cannot sample empty range"), core)

def electionTimedOut (core : RaftCore W) (now : Nat) : Bool := core.electionDeadline ≤ now

def renewLease (now : Nat) (core : RaftCore W) : RaftCore W :=
  if core.isLeader then { core with lease := core.lease.renew now } else core

def canServeLocalRead (core : RaftCore W) (now : Nat) : Bool :=
  core.isLeader && core.lease.isValid now

/-- The loop of `take_committed`: at most `fuel` entries, which is how far the
applied index is behind. -/
def takeLoop : Nat → RaftCore W → List LogEntry × RaftCore W
  | 0, core => ([], core)
  | fuel + 1, core =>
    match core.entryAt (core.lastApplied + 1) with
    | some entry =>
      let (out, core) := takeLoop fuel { core with lastApplied := core.lastApplied + 1 }
      (entry :: out, core)
    | none => ([], core)

/-- Newly committed entries; they count as applied from here on. -/
def takeCommitted (core : RaftCore W) : List LogEntry × RaftCore W :=
  takeLoop (core.commitIndex - core.lastApplied) core

section Log
variable [WalOps W]

def sync : Method W Unit := onLog WalOps.sync

def compact (snapshotMeta : SnapshotMeta) : Method W Unit := do
  let core ← Fallible.get
  Fallible.when (core.snapshot.lastIncludedIndex < snapshotMeta.lastIncludedIndex) do
    Fallible.modify fun core => { core with
      entries := core.entries.filter (snapshotMeta.lastIncludedIndex < ·.index) }
    onLog (WalOps.truncatePrefix (snapshotMeta.lastIncludedIndex + 1))
    Fallible.modify fun core => { core with snapshot := snapshotMeta }

variable [Bincode]

/-- Append a command as leader. The caller has to `sync`. -/
def appendCommand (command : Command) : Method W LogEntry := do
  let core ← Fallible.get
  if core.role ≠ .leader then
    Fallible.stop (.err (.raft "only the leader may append commands"))
  else do
    let entry : LogEntry := ⟨core.hard.currentTerm, core.lastLogIndex + 1, command⟩
    let bytes ← Fallible.lift ((Bincode.serialize entry).mapError .err)
    let _ ← onLog (WalOps.append bytes)
    Fallible.modify fun core => { core with entries := core.entries ++ [entry] }
    pure entry

/-- Entries of the log above the snapshot, decoded. -/
def loadEntries (snapshot : SnapshotMeta) : List (Nat × Bytes) → Except Error (List LogEntry)
  | [] => .ok []
  | (index, bytes) :: rest =>
    if index ≤ snapshot.lastIncludedIndex then loadEntries snapshot rest
    else do
      let entry ← Bincode.deserialize bytes
      let entries ← loadEntries snapshot rest
      pure (entry :: entries)

omit [WalOps W] [Bincode] in
/-- The node that `restore` assembles before it arms the timer. -/
def assemble (clock : Clock) (cfg : Config) (hardPath : HardFile) (snapshot : SnapshotMeta)
    (log : W) (entries : List LogEntry) : RaftCore W where
  id := cfg.id
  peers := cfg.peerIds
  clusterSize := cfg.clusterSize
  electionTimeout := cfg.electionTimeout
  hard := hardPath.load
  hardPath
  log
  entries
  snapshot
  role := .follower
  commitIndex := snapshot.lastIncludedIndex
  lastApplied := snapshot.lastIncludedIndex
  leaderId := none
  electionDeadline := clock.now
  nextIndex := fun _ => none
  matchIndex := fun _ => none
  lease := LeaderLease.new (cfg.electionTimeout.start / 2)

/-- Rebuild a node from its configuration and durable storage. Commit and
applied indices restart at the snapshot. -/
def restore (clock : Clock) (cfg : Config) (hardPath : HardFile) (snapshot : SnapshotMeta)
    (log : W) : Except Stop (RaftCore W) := do
  let records ← WalOps.readAll log
  let entries ← (loadEntries snapshot records).mapError .err
  match resetElectionTimer clock (assemble clock cfg hardPath snapshot log entries) with
  | (.ok (), core) => pure core
  | (.error stop, _) => throw stop

end Log
end RaftCore
end WalKv
