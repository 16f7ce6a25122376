import WalKv.Cluster.Model
import WalKv.Store.Snapshot

/-! The driver of one node. Its run loop, the proposals of its clients, the tasks
that a broadcast spawns and the two RPC handlers all share the core and the store
behind two mutexes; one action is what one of them does under one lock. The
network is arbitrary: handlers get any requests, and waiting calls any replies. -/
namespace WalKv
namespace Driver

/-- A broadcast that still waits for replies: the term it read when it started,
the requests in flight with the last index each one carries, and the
acknowledgements so far. -/
structure Broadcast where
  term : Nat
  waiting : List (Nat × Nat)
  acks : Nat
  deriving DecidableEq, Repr

/-- Where a call is between two of its locked sections. -/
inductive Pc where
  /-- The run loop waits for its next tick. -/
  | tick
  | elect
  | campaigning (campaign : Campaign)
  /-- About to enter `broadcast_append_entries`. -/
  | replicate
  | broadcasting (broadcast : Broadcast)
  /-- About to enter `apply_committed`. -/
  | apply
  /-- A batch was taken and waits for the store lock. -/
  | storing (batch : List LogEntry)
  /-- Under the store lock; the batch is applied and a snapshot is due. -/
  | snapshotting (latest : Nat)
  /-- Under the store lock; the snapshot is written. -/
  | compacting (latest : Nat) (snapshotMeta : SnapshotMeta)
  /-- About to send on the commit channel. -/
  | publishing (latest : Nat)
  | done
  deriving DecidableEq, Repr

def Pc.holdsStore : Pc → Bool
  | .snapshotting _ | .compacting .. => true
  | _ => false

/-- A request as it was handed to the transport, with the sender's role and the
terms it had won when the request was built. -/
structure Sent where
  peer : Nat
  args : AppendEntriesArgs
  role : Role
  won : List Nat
  deriving DecidableEq, Repr

/-- Thread 0 is the run loop; every proposal is a thread of its own. -/
structure State where
  core : Core
  store : Store
  commitTx : Nat
  threads : List Pc
  /-- Spawned per-peer tasks that have not built their request yet, with the
  thread whose broadcast spawned them. -/
  tasks : List (Nat × Nat)
  sent : List Sent
  won : List Nat

inductive Action where
  | tick (now : Nat)
  | campaign (clock : Clock)
  | vote (peer : Nat) (reply : RequestVoteReply)
  | voteLost (peer : Nat)
  | campaignOver
  | propose (command : Command)
  | broadcast (thread : Nat)
  | build (thread peer : Nat)
  /-- A task of a broadcast that has returned is aborted. -/
  | abort (thread peer : Nat)
  | reply (thread peer : Nat) (reply : AppendEntriesReply)
  | replyLost (thread peer : Nat)
  | broadcastOver (thread now : Nat)
  | take (thread : Nat)
  | store (thread : Nat)
  /-- Read the term, write the snapshot. -/
  | snapshot (thread : Nat) (outcome : SnapshotOutcome)
  | compact (thread : Nat)
  | publish (thread : Nat)
  | requestVote (args : RequestVoteArgs) (clock : Clock)
  | appendEntries (args : AppendEntriesArgs) (clock : Clock)

namespace State

/-- Where a thread is. -/
def pc (s : State) (thread : Nat) : Option Pc := s.threads[thread]?

def goto (s : State) (thread : Nat) (pc : Pc) : State :=
  { s with threads := s.threads.set thread pc }

/-- The run loop goes on with its next tick; a proposal returns. -/
def idle (s : State) (thread : Nat) : State :=
  s.goto thread (if thread = 0 then .tick else .done)

/-- A failed broadcast ends the tick, but a proposal ignores it. -/
def broadcastFailed (s : State) (thread : Nat) : State :=
  s.goto thread (if thread = 0 then .tick else .apply)

end State

section Steps
variable [Bincode]

/-- The first section of `tick`. -/
def tickStep (now : Nat) (s : State) : State :=
  if s.core.isLeader then s.goto 0 .replicate
  else if s.core.electionTimedOut now then s.goto 0 .elect
  else s.goto 0 .apply

/-- The first section of `start_election`. -/
def campaignStep (clock : Clock) (s : State) : State :=
  match RaftCore.becomeCandidate clock s.core with
  | (.ok _, core) =>
    { s with core }.goto 0 (.campaigning ⟨core.hard.currentTerm, 1, core.peers⟩)
  | (.error _, core) => { s with core }.goto 0 .tick

/-- Winning: lead, and append a no-op of the new term. -/
def winStep (s : State) : State :=
  match appendAsLeader .noop s.core.becomeLeader with
  | (.ok _, core) => { s with core, won := s.core.hard.currentTerm :: s.won }.goto 0 .apply
  | (.error _, core) => { s with core, won := s.core.hard.currentTerm :: s.won }.goto 0 .tick

/-- One turn of the reply loop of `start_election`. -/
def voteStep (peer : Nat) (reply : RequestVoteReply) (campaign : Campaign) (s : State) : State :=
  if s.core.hard.currentTerm < reply.term then
    match RaftCore.becomeFollower reply.term none s.core with
    | (.ok (), core) => { s with core }.goto 0 .apply
    | (.error _, core) => { s with core }.goto 0 .tick
  else if s.core.role ≠ .candidate ∨ s.core.hard.currentTerm ≠ campaign.term then
    s.goto 0 .apply
  else if reply.voteGranted then
    if s.core.quorum ≤ campaign.votes + 1 then winStep s
    else s.goto 0 (.campaigning (campaign.heard peer 1))
  else s.goto 0 (.campaigning (campaign.heard peer 0))

/-- The locked section of `propose`; a proposal that is accepted goes on to
replicate. -/
def proposeStep (command : Command) (s : State) : State :=
  if s.core.isLeader then
    match appendAsLeader command s.core with
    | (.ok _, core) => { s with core, threads := s.threads ++ [.replicate] }
    | (.error _, core) => { s with core, threads := s.threads ++ [.done] }
  else { s with threads := s.threads ++ [.done] }

/-- The first section of `broadcast_append_entries`. -/
def broadcastStep (thread : Nat) (s : State) : State :=
  { s with tasks := s.tasks ++ s.core.peers.map fun peer => (thread, peer) }.goto thread
    (.broadcasting ⟨s.core.hard.currentTerm, [], 1⟩)

/-- The locked section of a per-peer task. -/
def buildStep (thread peer : Nat) (s : State) : State :=
  let args := s.core.buildAppendEntries peer
  let sent := { s with
    tasks := s.tasks.erase (thread, peer)
    sent := ⟨peer, args, s.core.role, s.won⟩ :: s.sent }
  match s.pc thread with
  | some (.broadcasting broadcast) => sent.goto thread
      (.broadcasting { broadcast with waiting := (peer, args.lastSent) :: broadcast.waiting })
  | _ => sent

/-- One turn of the reply loop of `broadcast_append_entries`. -/
def replyStep (thread peer lastSent : Nat) (reply : AppendEntriesReply) (broadcast : Broadcast)
    (s : State) : State :=
  if s.core.hard.currentTerm < reply.term then
    match RaftCore.becomeFollower reply.term none s.core with
    | (.ok (), core) => { s with core }.goto thread .apply
    | (.error _, core) => { s with core }.broadcastFailed thread
  else if !s.core.isLeader || s.core.hard.currentTerm ≠ broadcast.term then
    s.goto thread .apply
  else
    { s with core := s.core.onAppendEntriesReply peer lastSent reply }.goto thread
      (.broadcasting { broadcast with
        waiting := broadcast.waiting.erase (peer, lastSent)
        acks := if reply.success then broadcast.acks + 1 else broadcast.acks })

def broadcastOverStep (thread now : Nat) (broadcast : Broadcast) (s : State) : State :=
  (if s.core.quorum ≤ broadcast.acks then { s with core := s.core.renewLease now } else s).goto
    thread .apply

/-- The first section of `apply_committed`. -/
def takeStep (thread : Nat) (s : State) : State :=
  let (batch, core) := s.core.takeCommitted
  if batch = [] then { s with core }.idle thread else { s with core }.goto thread (.storing batch)

/-- Apply a batch to the store in order. -/
def applyBatch (batch : List LogEntry) (store : Store) : Store :=
  batch.foldl (fun store entry => store.apply entry.index entry.command) store

/-- The apply loop under the store lock. The lock is kept if a snapshot is due. -/
def storeStep (thread : Nat) (batch : List LogEntry) (s : State) : State :=
  let store := applyBatch batch s.store
  let latest := (batch.getLast?.map LogEntry.index).getD 0
  { s with store }.goto thread
    (if store.shouldSnapshot then .snapshotting latest else .publishing latest)

def snapshotStep (thread latest : Nat) (outcome : SnapshotOutcome) (s : State) : State :=
  match s.store.takeSnapshot ((s.core.termAt s.store.lastApplied).getD 0) outcome with
  | (some snapshotMeta, store) => { s with store }.goto thread (.compacting latest snapshotMeta)
  | (none, store) => { s with store }.idle thread

def compactStep (thread latest : Nat) (snapshotMeta : SnapshotMeta) (s : State) : State :=
  match RaftCore.compact snapshotMeta s.core with
  | (.ok (), core) => { s with core }.goto thread (.publishing latest)
  | (.error _, core) => { s with core }.idle thread

def step (s : State) : Action → Option State
  | .tick now => if s.pc 0 = some .tick then some (tickStep now s) else none
  | .campaign clock => if s.pc 0 = some .elect then some (campaignStep clock s) else none
  | .vote peer reply =>
    match s.pc 0 with
    | some (.campaigning campaign) =>
      if peer ∈ campaign.waiting then some (voteStep peer reply campaign s) else none
    | _ => none
  | .voteLost peer =>
    match s.pc 0 with
    | some (.campaigning campaign) =>
      if peer ∈ campaign.waiting then some (s.goto 0 (.campaigning (campaign.heard peer 0)))
      else none
    | _ => none
  | .campaignOver =>
    match s.pc 0 with
    | some (.campaigning campaign) =>
      if campaign.waiting = [] then some (s.goto 0 .apply) else none
    | _ => none
  | .propose command => some (proposeStep command s)
  | .broadcast thread =>
    if s.pc thread = some .replicate then some (broadcastStep thread s) else none
  | .build thread peer =>
    if (thread, peer) ∈ s.tasks then some (buildStep thread peer s) else none
  | .abort thread peer =>
    match s.pc thread with
    | some (.broadcasting _) => none
    | _ =>
      if (thread, peer) ∈ s.tasks then some { s with tasks := s.tasks.erase (thread, peer) }
      else none
  | .reply thread peer reply =>
    match s.pc thread with
    | some (.broadcasting broadcast) =>
      match broadcast.waiting.find? (·.1 = peer) with
      | some (_, lastSent) => some (replyStep thread peer lastSent reply broadcast s)
      | none => none
    | _ => none
  | .replyLost thread peer =>
    match s.pc thread with
    | some (.broadcasting broadcast) =>
      some (s.goto thread (.broadcasting { broadcast with
        waiting := broadcast.waiting.filter (·.1 ≠ peer) }))
    | _ => none
  | .broadcastOver thread now =>
    match s.pc thread with
    | some (.broadcasting broadcast) =>
      if broadcast.waiting = [] ∧ s.tasks.all (·.1 ≠ thread) then
        some (broadcastOverStep thread now broadcast s) else none
    | _ => none
  | .take thread => if s.pc thread = some .apply then some (takeStep thread s) else none
  | .store thread =>
    match s.pc thread with
    | some (.storing batch) =>
      if s.threads.any Pc.holdsStore then none else some (storeStep thread batch s)
    | _ => none
  | .snapshot thread outcome =>
    match s.pc thread with
    | some (.snapshotting latest) => some (snapshotStep thread latest outcome s)
    | _ => none
  | .compact thread =>
    match s.pc thread with
    | some (.compacting latest snapshotMeta) => some (compactStep thread latest snapshotMeta s)
    | _ => none
  | .publish thread =>
    match s.pc thread with
    | some (.publishing latest) => some ({ s with commitTx := latest }.idle thread)
    | _ => none
  | .requestVote args clock =>
    some { s with core := (RaftCore.handleRequestVote clock args s.core).2 }
  | .appendEntries args clock =>
    some { s with core := (RaftCore.handleAppendEntries clock args s.core).2 }

/-- What an action can do, with those of its guards that the invariants need. -/
inductive Does (s : State) : Action → State → Prop
  | tick {now : Nat} (here : s.pc 0 = some .tick) : Does s (.tick now) (tickStep now s)
  | campaign {clock : Clock} (here : s.pc 0 = some .elect) :
    Does s (.campaign clock) (campaignStep clock s)
  | vote {peer : Nat} {reply : RequestVoteReply} {campaign : Campaign}
    (here : s.pc 0 = some (.campaigning campaign)) :
    Does s (.vote peer reply) (voteStep peer reply campaign s)
  | voteLost {peer : Nat} {campaign : Campaign} (here : s.pc 0 = some (.campaigning campaign)) :
    Does s (.voteLost peer) (s.goto 0 (.campaigning (campaign.heard peer 0)))
  | campaignOver {campaign : Campaign} (here : s.pc 0 = some (.campaigning campaign)) :
    Does s .campaignOver (s.goto 0 .apply)
  | propose {command : Command} : Does s (.propose command) (proposeStep command s)
  | broadcast {thread : Nat} (here : s.pc thread = some .replicate) :
    Does s (.broadcast thread) (broadcastStep thread s)
  | build {thread peer : Nat} (spawned : (thread, peer) ∈ s.tasks) :
    Does s (.build thread peer) (buildStep thread peer s)
  | abort {thread peer : Nat} :
    Does s (.abort thread peer) { s with tasks := s.tasks.erase (thread, peer) }
  | reply {thread peer lastSent : Nat} {reply : AppendEntriesReply} {broadcast : Broadcast}
    (here : s.pc thread = some (.broadcasting broadcast)) :
    Does s (.reply thread peer reply) (replyStep thread peer lastSent reply broadcast s)
  | replyLost {thread peer : Nat} {broadcast : Broadcast}
    (here : s.pc thread = some (.broadcasting broadcast)) :
    Does s (.replyLost thread peer) (s.goto thread (.broadcasting { broadcast with
      waiting := broadcast.waiting.filter (·.1 ≠ peer) }))
  | broadcastOver {thread now : Nat} {broadcast : Broadcast}
    (here : s.pc thread = some (.broadcasting broadcast)) :
    Does s (.broadcastOver thread now) (broadcastOverStep thread now broadcast s)
  | take {thread : Nat} (here : s.pc thread = some .apply) : Does s (.take thread) (takeStep thread s)
  | store {thread : Nat} {batch : List LogEntry} (here : s.pc thread = some (.storing batch))
    (unlocked : ¬ s.threads.any Pc.holdsStore) : Does s (.store thread) (storeStep thread batch s)
  | snapshot {thread latest : Nat} {outcome : SnapshotOutcome}
    (here : s.pc thread = some (.snapshotting latest)) :
    Does s (.snapshot thread outcome) (snapshotStep thread latest outcome s)
  | compact {thread latest : Nat} {snapshotMeta : SnapshotMeta}
    (here : s.pc thread = some (.compacting latest snapshotMeta)) :
    Does s (.compact thread) (compactStep thread latest snapshotMeta s)
  | publish {thread latest : Nat} (here : s.pc thread = some (.publishing latest)) :
    Does s (.publish thread) ({ s with commitTx := latest }.idle thread)
  | requestVote {args : RequestVoteArgs} {clock : Clock} : Does s (.requestVote args clock)
    { s with core := (RaftCore.handleRequestVote clock args s.core).2 }
  | appendEntries {args : AppendEntriesArgs} {clock : Clock} : Does s (.appendEntries args clock)
    { s with core := (RaftCore.handleAppendEntries clock args s.core).2 }

theorem step_does {s s' : State} {action : Action} (stepped : step s action = some s') :
    Does s action s' := by
  cases action with
  | tick _ =>
    simp only [step, Option.ite_none_right_eq_some, Option.some.injEq] at stepped
    exact stepped.2 ▸ .tick stepped.1
  | campaign _ =>
    simp only [step, Option.ite_none_right_eq_some, Option.some.injEq] at stepped
    exact stepped.2 ▸ .campaign stepped.1
  | vote _ _ =>
    simp only [step] at stepped
    split at stepped
    · rename_i here
      simp only [Option.ite_none_right_eq_some, Option.some.injEq] at stepped
      exact stepped.2 ▸ .vote here
    · cases stepped
  | voteLost _ =>
    simp only [step] at stepped
    split at stepped
    · rename_i here
      simp only [Option.ite_none_right_eq_some, Option.some.injEq] at stepped
      exact stepped.2 ▸ .voteLost here
    · cases stepped
  | campaignOver =>
    simp only [step] at stepped
    split at stepped
    · rename_i here
      simp only [Option.ite_none_right_eq_some, Option.some.injEq] at stepped
      exact stepped.2 ▸ .campaignOver here
    · cases stepped
  | propose _ =>
    cases stepped
    exact .propose
  | broadcast _ =>
    simp only [step, Option.ite_none_right_eq_some, Option.some.injEq] at stepped
    exact stepped.2 ▸ .broadcast stepped.1
  | build _ _ =>
    simp only [step, Option.ite_none_right_eq_some, Option.some.injEq] at stepped
    exact stepped.2 ▸ .build stepped.1
  | abort _ _ =>
    simp only [step] at stepped
    split at stepped
    · cases stepped
    · simp only [Option.ite_none_right_eq_some, Option.some.injEq] at stepped
      exact stepped.2 ▸ .abort
  | reply _ _ _ =>
    simp only [step] at stepped
    split at stepped
    · rename_i here
      split at stepped
      · cases stepped
        exact .reply here
      · cases stepped
    · cases stepped
  | replyLost _ _ =>
    simp only [step] at stepped
    split at stepped
    · rename_i here
      cases stepped
      exact .replyLost here
    · cases stepped
  | broadcastOver _ _ =>
    simp only [step] at stepped
    split at stepped
    · rename_i here
      simp only [Option.ite_none_right_eq_some, Option.some.injEq] at stepped
      exact stepped.2 ▸ .broadcastOver here
    · cases stepped
  | take _ =>
    simp only [step, Option.ite_none_right_eq_some, Option.some.injEq] at stepped
    exact stepped.2 ▸ .take stepped.1
  | store _ =>
    simp only [step] at stepped
    split at stepped
    · rename_i here
      split_ifs at stepped with locked
      cases stepped
      exact .store here locked
    · cases stepped
  | snapshot _ _ =>
    simp only [step] at stepped
    split at stepped
    · rename_i here
      cases stepped
      exact .snapshot here
    · cases stepped
  | compact _ =>
    simp only [step] at stepped
    split at stepped
    · rename_i here
      cases stepped
      exact .compact here
    · cases stepped
  | publish _ =>
    simp only [step] at stepped
    split at stepped
    · rename_i here
      cases stepped
      exact .publish here
    · cases stepped
  | requestVote _ _ =>
    cases stepped
    exact .requestVote
  | appendEntries _ _ =>
    cases stepped
    exact .appendEntries

/-- `Raft::bootstrap`, and the run loop before its first tick. -/
def bootstrap (clock : Clock) (cfg : Config) (hardPath : HardFile) (snapshotDir : SnapshotDir)
    (log : FlatLog) : Except Stop State := do
  let store := Store.opened cfg.snapshotThreshold snapshotDir
  let core ← RaftCore.restore clock cfg hardPath store.lastSnapshot log
  pure ⟨core, store, core.commitIndex, [.tick], [], [], []⟩

end Steps
end Driver
end WalKv
