import WalKv.Raft.Replication
import WalKv.Wal.Flat
import WalKv.Transition

/-! A cluster of cores and the messages between them. Every action is what one
node does under its core mutex, as its driver calls the core. Requests stay
available once sent, so they may be lost, delayed, reordered or delivered again;
answers wait for the caller, who takes at most one from each peer it asked in a
campaign. The trace records what the run has shown so far. -/
namespace WalKv

/-- One membership that every node was configured with. -/
structure Membership where
  members : List Nat
  config : Nat → Config
  configured : ∀ n ∈ members, (config n).id = n
  valid : ∀ n ∈ members, (config n).validate = .ok ()
  shared : ∀ n ∈ members, ((config n).peerIds ++ [n]).Perm members

abbrev Core := RaftCore FlatLog

/-- The part of `start_election` that outlives one lock section. -/
structure Campaign where
  term : Nat
  votes : Nat
  waiting : List Nat
  deriving DecidableEq, Repr

/-- A peer has answered and brought some votes. -/
def Campaign.heard (campaign : Campaign) (peer votes : Nat) : Campaign :=
  { campaign with votes := campaign.votes + votes, waiting := campaign.waiting.erase peer }

/-- A running process: its core, its campaign, the batches taken for the store
and not yet published, the published commit index, and the entries its clients
wait for. All but the durable part of the core is lost in a crash. -/
structure Server where
  core : Core
  campaign : Option Campaign
  taken : List (List LogEntry)
  commitTx : Nat
  pending : List LogEntry

def Server.fresh (core : Core) : Server := ⟨core, none, [], core.commitIndex, []⟩

structure VoteCall where
  src : Nat
  dst : Nat
  args : RequestVoteArgs
  deriving DecidableEq, Repr

structure VoteAnswer where
  voter : Nat
  candidate : Nat
  /-- The term that was asked for. -/
  term : Nat
  reply : RequestVoteReply
  deriving DecidableEq, Repr

structure AppendCall where
  src : Nat
  dst : Nat
  args : AppendEntriesArgs
  deriving DecidableEq, Repr

structure AppendAnswer where
  peer : Nat
  leader : Nat
  term : Nat
  lastSent : Nat
  reply : AppendEntriesReply
  deriving DecidableEq, Repr

/-- What a run shows: a vote given, a core at the moment it became leader, a
leader's core right after it moved its commit index, an entry handed to the
store and the index it was handed out for, a client write answered. -/
inductive Event where
  | voted (voter term candidate : Nat)
  | elected (core : Core)
  | committed (core : Core)
  | applied (node index : Nat) (entry : LogEntry)
  | acknowledged (node : Nat) (entry : LogEntry)

structure Cluster where
  server : Nat → Server
  voteCalls : List VoteCall
  voteAnswers : List VoteAnswer
  appendCalls : List AppendCall
  appendAnswers : List AppendAnswer
  trace : List Event

/-- A core method that a crash can interrupt after any of its persists. -/
inductive Call where
  | timeout
  | requestVote (call : VoteCall)
  | appendEntries (call : AppendCall)
  | voteAnswer (answer : VoteAnswer)
  | appendAnswer (answer : AppendAnswer)

inductive Action where
  /-- The election timer fires and a campaign starts. -/
  | timeout (n : Nat) (clock : Clock)
  | requestVote (call : VoteCall) (clock : Clock)
  | voteAnswer (answer : VoteAnswer)
  | propose (n : Nat) (command : Command)
  | build (n peer : Nat)
  | appendEntries (call : AppendCall) (clock : Clock)
  | appendAnswer (answer : AppendAnswer)
  | take (n : Nat)
  | publish (n : Nat) (batch : List LogEntry)
  | acknowledge (n : Nat) (entry : LogEntry)
  /-- `wait_for_commit` times out, and the client of the entry is told so. -/
  | deadlineExceeded (n : Nat) (entry : LogEntry)
  | compact (n index : Nat)
  /-- Crash between two calls and restart. -/
  | crash (n : Nat) (clock : Clock)
  /-- Crash with a snapshot of `index` on disk that the node has not compacted to. -/
  | crashUncompacted (n : Nat) (clock : Clock) (index : Nat)
  /-- Crash inside a call: persists end as listed, and the process restarts from
  the hard state then on disk and from whatever log and snapshot it finds. -/
  | interrupt (n : Nat) (call : Call) (clock : Clock) (outcomes : List PersistOutcome)
      (snapshot : SnapshotMeta) (log : FlatLog)

def Action.node : Action → Nat
  | .timeout n _ | .propose n _ | .build n _ | .take n | .publish n _ | .acknowledge n _
  | .deadlineExceeded n _ | .compact n _ | .crash n _ | .crashUncompacted n _ _
  | .interrupt n _ _ _ _ _ => n
  | .requestVote call _ => call.dst
  | .voteAnswer answer => answer.candidate
  | .appendEntries call _ => call.dst
  | .appendAnswer answer => answer.leader

/-- The action starts node `n` again. -/
def Action.restarts (n : Nat) : Action → Bool
  | .crash v _ | .crashUncompacted v _ _ | .interrupt v _ _ _ _ _ => v = n
  | _ => false

/-- What an action does: the acting node's new process state, and what it adds
to the network and to the trace. -/
structure Effect where
  server : Server
  voteCalls : List VoteCall := []
  voteAnswers : List VoteAnswer := []
  appendCalls : List AppendCall := []
  appendAnswers : List AppendAnswer := []
  events : List Event := []

def Cluster.apply (c : Cluster) (n : Nat) (e : Effect) : Cluster where
  server := Function.update c.server n e.server
  voteCalls := c.voteCalls ++ e.voteCalls
  voteAnswers := c.voteAnswers ++ e.voteAnswers
  appendCalls := c.appendCalls ++ e.appendCalls
  appendAnswers := c.appendAnswers ++ e.appendAnswers
  trace := c.trace ++ e.events

/-- The event of a leader's commit index having moved. -/
def commitEvent (before after : Core) : List Event :=
  if before.commitIndex < after.commitIndex then [.committed after] else []

/-- The entries of a batch with the indices they were handed out for. -/
def appliedEvents (n : Nat) : Nat → List LogEntry → List Event
  | _, [] => []
  | index, entry :: rest => .applied n index entry :: appliedEvents n (index + 1) rest

section Effects
variable [Bincode]

/-- Append and sync as leader, then try to commit. -/
def appendAsLeader (command : Command) : Method FlatLog LogEntry := do
  let entry ← RaftCore.appendCommand command
  RaftCore.sync
  Fallible.modify RaftCore.advanceCommitIndex
  pure entry

def timeoutEffect (clock : Clock) (s : Server) : Effect :=
  match RaftCore.becomeCandidate clock s.core with
  | (.ok args, core) =>
    { server := { s with core, campaign := some ⟨core.hard.currentTerm, 1, core.peers⟩ }
      voteCalls := core.peers.map fun peer => ⟨core.id, peer, args⟩
      events := [.voted core.id core.hard.currentTerm core.id] }
  | (.error _, core) => { server := { s with core, campaign := none } }

def requestVoteEffect (call : VoteCall) (clock : Clock) (s : Server) : Effect :=
  match RaftCore.handleRequestVote clock call.args s.core with
  | (.ok reply, core) =>
    { server := { s with core }
      voteAnswers := [⟨call.dst, call.src, call.args.term, reply⟩]
      events := if reply.voteGranted then
        [.voted call.dst call.args.term call.args.candidateId] else [] }
  | (.error _, core) => { server := { s with core } }

/-- Winning a campaign: lead, and append a no-op of the new term. -/
def winEffect (s : Server) : Effect :=
  let elected := s.core.becomeLeader
  let core := (appendAsLeader .noop elected).2
  { server := { s with core, campaign := none }
    events := .elected elected :: commitEvent elected core }

/-- One turn of the reply loop of `start_election`. -/
def voteAnswerEffect (answer : VoteAnswer) (campaign : Campaign) (s : Server) : Effect :=
  if s.core.hard.currentTerm < answer.reply.term then
    { server := { s with
        core := (RaftCore.becomeFollower answer.reply.term none s.core).2
        campaign := none } }
  else if s.core.role ≠ .candidate ∨ s.core.hard.currentTerm ≠ campaign.term then
    { server := { s with campaign := none } }
  else if answer.reply.voteGranted then
    if s.core.quorum ≤ campaign.votes + 1 then winEffect s
    else { server := { s with campaign := some (campaign.heard answer.voter 1) } }
  else { server := { s with campaign := some (campaign.heard answer.voter 0) } }

/-- The locked section of `propose`; the client then waits for the entry. -/
def proposeEffect (command : Command) (s : Server) : Effect :=
  match appendAsLeader command s.core with
  | (.ok entry, core) =>
    { server := { s with core, pending := entry :: s.pending }
      events := commitEvent s.core core }
  | (.error _, core) => { server := { s with core } }

def appendEntriesEffect (call : AppendCall) (clock : Clock) (s : Server) : Effect :=
  match RaftCore.handleAppendEntries clock call.args s.core with
  | (.ok reply, core) =>
    { server := { s with core }
      appendAnswers := [⟨call.dst, call.src, call.args.term, call.args.lastSent, reply⟩] }
  | (.error _, core) => { server := { s with core } }

/-- One turn of the reply loop of `broadcast_append_entries`. -/
def appendAnswerEffect (answer : AppendAnswer) (s : Server) : Effect :=
  if s.core.hard.currentTerm < answer.reply.term then
    { server := { s with core := (RaftCore.becomeFollower answer.reply.term none s.core).2 } }
  else if s.core.role ≠ .leader ∨ s.core.hard.currentTerm ≠ answer.term then
    { server := s }
  else
    let core := s.core.onAppendEntriesReply answer.peer answer.lastSent answer.reply
    { server := { s with core }, events := commitEvent s.core core }

def takeEffect (n : Nat) (s : Server) : Effect :=
  let (batch, core) := s.core.takeCommitted
  { server := { s with core, taken := if batch = [] then s.taken else s.taken ++ [batch] }
    events := appliedEvents n (s.core.lastApplied + 1) batch }

/-- The hard state on disk when a call with the given persist outcomes stops. -/
def hardAfter (call : Call) (clock : Clock) (outcomes : List PersistOutcome) (core : Core) :
    HardFile :=
  let core := { core with hardPath := { core.hardPath with outcomes } }
  let after := match call with
    | .timeout => (RaftCore.becomeCandidate clock core).2
    | .requestVote call => (RaftCore.handleRequestVote clock call.args core).2
    | .appendEntries call => (RaftCore.handleAppendEntries clock call.args core).2
    | .voteAnswer answer => (RaftCore.becomeFollower answer.reply.term none core).2
    | .appendAnswer answer => (RaftCore.becomeFollower answer.reply.term none core).2
  ⟨after.hardPath.content, []⟩

/-- Whether an interrupted call had something to work on. -/
def Call.enabled (c : Cluster) (n : Nat) : Call → Bool
  | .timeout => true
  | .requestVote call => call ∈ c.voteCalls && call.dst = n
  | .appendEntries call => call ∈ c.appendCalls && call.dst = n
  | .voteAnswer answer => answer ∈ c.voteAnswers && answer.candidate = n
  | .appendAnswer answer => answer ∈ c.appendAnswers && answer.leader = n

variable (m : Membership)

def restart (clock : Clock) (n : Nat) (hardPath : HardFile) (snapshot : SnapshotMeta)
    (log : FlatLog) : Option Effect :=
  match RaftCore.restore clock (m.config n) hardPath snapshot log with
  | .ok core => some { server := Server.fresh core }
  | .error _ => none

variable {m} in
theorem restart_ok {clock : Clock} {n : Nat} {file : HardFile} {snapshot : SnapshotMeta}
    {log : FlatLog} {e : Effect} (restarted : restart m clock n file snapshot log = some e) :
    ∃ core, RaftCore.restore clock (m.config n) file snapshot log = .ok core ∧
      e = { server := Server.fresh core } := by
  unfold restart at restarted
  split at restarted
  · rename_i core restored
    exact ⟨core, restored, (Option.some.inj restarted).symm⟩
  · cases restarted

def effect (c : Cluster) : Action → Option Effect
  | .timeout n clock => some (timeoutEffect clock (c.server n))
  | .requestVote call clock =>
    if call ∈ c.voteCalls then some (requestVoteEffect call clock (c.server call.dst)) else none
  | .voteAnswer answer =>
    match (c.server answer.candidate).campaign with
    | some campaign =>
      if answer ∈ c.voteAnswers ∧ answer.term = campaign.term ∧ answer.voter ∈ campaign.waiting then
        some (voteAnswerEffect answer campaign (c.server answer.candidate))
      else none
    | none => none
  | .propose n command => some (proposeEffect command (c.server n))
  | .build n peer =>
    if peer ∈ (c.server n).core.peers then
      some { server := c.server n
             appendCalls := [⟨n, peer, (c.server n).core.buildAppendEntries peer⟩] }
    else none
  | .appendEntries call clock =>
    if call ∈ c.appendCalls then some (appendEntriesEffect call clock (c.server call.dst)) else none
  | .appendAnswer answer =>
    if answer ∈ c.appendAnswers then
      some (appendAnswerEffect answer (c.server answer.leader)) else none
  | .take n => some (takeEffect n (c.server n))
  | .publish n batch =>
    match batch.getLast? with
    | some last =>
      if batch ∈ (c.server n).taken then
        some { server := { c.server n with
          taken := (c.server n).taken.erase batch, commitTx := last.index } }
      else none
    | none => none
  | .acknowledge n entry =>
    if entry ∈ (c.server n).pending ∧ entry.index ≤ (c.server n).commitTx then
      some { server := { c.server n with pending := (c.server n).pending.erase entry }
             events := [.acknowledged n entry] }
    else none
  | .deadlineExceeded n entry =>
    if entry ∈ (c.server n).pending then
      some { server := { c.server n with pending := (c.server n).pending.erase entry } }
    else none
  | .compact n index =>
    let core := (c.server n).core
    if index ≤ core.lastApplied then
      some { server := { c.server n with
        core := (RaftCore.compact ⟨index, (core.termAt index).getD 0⟩ core).2 } }
    else none
  | .crash n clock =>
    let core := (c.server n).core
    restart m clock n core.hardPath core.snapshot core.log
  | .crashUncompacted n clock index =>
    let core := (c.server n).core
    if core.snapshot.lastIncludedIndex < index ∧ index ≤ core.lastApplied then
      restart m clock n core.hardPath ⟨index, (core.termAt index).getD 0⟩ core.log
    else none
  | .interrupt n call clock outcomes snapshot log =>
    if call.enabled c n then
      restart m clock n (hardAfter call clock outcomes (c.server n).core) snapshot log
    else none

def step (c : Cluster) (action : Action) : Option Cluster :=
  if action.node ∈ m.members then (effect m c action).map (c.apply action.node) else none

/-- What each action needs and does. -/
inductive Acts (c : Cluster) : Action → Effect → Prop where
  | timeout (n : Nat) (clock : Clock) :
      Acts c (.timeout n clock) (timeoutEffect clock (c.server n))
  | requestVote {call : VoteCall} (clock : Clock) (sent : call ∈ c.voteCalls) :
      Acts c (.requestVote call clock) (requestVoteEffect call clock (c.server call.dst))
  | voteAnswer {answer : VoteAnswer} {campaign : Campaign}
      (running : (c.server answer.candidate).campaign = some campaign)
      (sent : answer ∈ c.voteAnswers) (asked : answer.term = campaign.term)
      (waits : answer.voter ∈ campaign.waiting) : Acts c (.voteAnswer answer)
        (voteAnswerEffect answer campaign (c.server answer.candidate))
  | propose (n : Nat) (command : Command) :
      Acts c (.propose n command) (proposeEffect command (c.server n))
  | build {n peer : Nat} (listed : peer ∈ (c.server n).core.peers) : Acts c (.build n peer)
      { server := c.server n
        appendCalls := [⟨n, peer, (c.server n).core.buildAppendEntries peer⟩] }
  | appendEntries {call : AppendCall} (clock : Clock) (sent : call ∈ c.appendCalls) :
      Acts c (.appendEntries call clock) (appendEntriesEffect call clock (c.server call.dst))
  | appendAnswer {answer : AppendAnswer} (sent : answer ∈ c.appendAnswers) :
      Acts c (.appendAnswer answer) (appendAnswerEffect answer (c.server answer.leader))
  | take (n : Nat) : Acts c (.take n) (takeEffect n (c.server n))
  | publish {n : Nat} {batch : List LogEntry} {last : LogEntry} (ends : batch.getLast? = some last)
      (taken : batch ∈ (c.server n).taken) : Acts c (.publish n batch)
        { server := { c.server n with
            taken := (c.server n).taken.erase batch, commitTx := last.index } }
  | acknowledge {n : Nat} {entry : LogEntry} (waits : entry ∈ (c.server n).pending)
      (reached : entry.index ≤ (c.server n).commitTx) : Acts c (.acknowledge n entry)
        { server := { c.server n with pending := (c.server n).pending.erase entry }
          events := [.acknowledged n entry] }
  | deadlineExceeded {n : Nat} {entry : LogEntry} (waits : entry ∈ (c.server n).pending) :
      Acts c (.deadlineExceeded n entry)
        { server := { c.server n with pending := (c.server n).pending.erase entry } }
  | compact {n index : Nat} (applied : index ≤ (c.server n).core.lastApplied) :
      Acts c (.compact n index)
        { server := { c.server n with core := (RaftCore.compact
            ⟨index, ((c.server n).core.termAt index).getD 0⟩ (c.server n).core).2 } }
  | crash {n : Nat} {clock : Clock} {e : Effect} (restarted : restart m clock n
      (c.server n).core.hardPath (c.server n).core.snapshot (c.server n).core.log = some e) :
      Acts c (.crash n clock) e
  | crashUncompacted {n : Nat} {clock : Clock} {index : Nat} {e : Effect}
      (newer : (c.server n).core.snapshot.lastIncludedIndex < index)
      (applied : index ≤ (c.server n).core.lastApplied)
      (restarted : restart m clock n (c.server n).core.hardPath
        ⟨index, ((c.server n).core.termAt index).getD 0⟩ (c.server n).core.log = some e) :
      Acts c (.crashUncompacted n clock index) e
  | interrupt {n : Nat} {call : Call} {clock : Clock} {outcomes : List PersistOutcome}
      {snapshot : SnapshotMeta} {log : FlatLog} {e : Effect} (enabled : call.enabled c n = true)
      (restarted : restart m clock n (hardAfter call clock outcomes (c.server n).core) snapshot log =
        some e) : Acts c (.interrupt n call clock outcomes snapshot log) e

variable {m} in
theorem effect_acts {c : Cluster} {action : Action} {e : Effect}
    (acted : effect m c action = some e) : Acts m c action e := by
  cases action with
  | timeout n clock =>
    cases acted
    exact .timeout n clock
  | requestVote call clock =>
    simp only [effect, Option.ite_none_right_eq_some] at acted
    obtain ⟨sent, ⟨⟩⟩ := acted
    exact .requestVote clock sent
  | voteAnswer answer =>
    simp only [effect] at acted
    split at acted
    · rename_i campaign running
      simp only [Option.ite_none_right_eq_some] at acted
      obtain ⟨⟨sent, asked, waits⟩, ⟨⟩⟩ := acted
      exact .voteAnswer running sent asked waits
    · cases acted
  | propose n command =>
    cases acted
    exact .propose n command
  | build n peer =>
    simp only [effect, Option.ite_none_right_eq_some] at acted
    obtain ⟨listed, ⟨⟩⟩ := acted
    exact .build listed
  | appendEntries call clock =>
    simp only [effect, Option.ite_none_right_eq_some] at acted
    obtain ⟨sent, ⟨⟩⟩ := acted
    exact .appendEntries clock sent
  | appendAnswer answer =>
    simp only [effect, Option.ite_none_right_eq_some] at acted
    obtain ⟨sent, ⟨⟩⟩ := acted
    exact .appendAnswer sent
  | take n =>
    cases acted
    exact .take n
  | publish n batch =>
    simp only [effect] at acted
    split at acted
    · rename_i last ends
      simp only [Option.ite_none_right_eq_some] at acted
      obtain ⟨taken, ⟨⟩⟩ := acted
      exact .publish ends taken
    · cases acted
  | acknowledge n entry =>
    simp only [effect, Option.ite_none_right_eq_some] at acted
    obtain ⟨⟨waits, reached⟩, ⟨⟩⟩ := acted
    exact .acknowledge waits reached
  | deadlineExceeded n entry =>
    simp only [effect, Option.ite_none_right_eq_some] at acted
    obtain ⟨waits, ⟨⟩⟩ := acted
    exact .deadlineExceeded waits
  | compact n index =>
    simp only [effect, Option.ite_none_right_eq_some] at acted
    obtain ⟨applied, ⟨⟩⟩ := acted
    exact .compact applied
  | crash n clock => exact .crash acted
  | crashUncompacted n clock index =>
    simp only [effect, Option.ite_none_right_eq_some] at acted
    obtain ⟨⟨newer, applied⟩, restarted⟩ := acted
    exact .crashUncompacted newer applied restarted
  | interrupt n call clock outcomes snapshot log =>
    simp only [effect, Option.ite_none_right_eq_some] at acted
    exact .interrupt acted.1 acted.2

variable {m} in
theorem step_ok {c c' : Cluster} {action : Action} (stepped : step m c action = some c') :
    action.node ∈ m.members ∧ ∃ e, effect m c action = some e ∧ c.apply action.node e = c' := by
  simpa only [step, Option.ite_none_right_eq_some, Option.map_eq_some_iff] using stepped

/-- Every node freshly restored from an empty directory, nothing sent yet. -/
structure Initial (c : Cluster) : Prop where
  server : ∀ n ∈ m.members, ∃ clock core,
    RaftCore.restore clock (m.config n) HardFile.absent default FlatLog.empty = .ok core ∧
      c.server n = Server.fresh core
  voteCalls : c.voteCalls = []
  voteAnswers : c.voteAnswers = []
  appendCalls : c.appendCalls = []
  appendAnswers : c.appendAnswers = []
  trace : c.trace = []

/-- States that a run of allowed actions reaches. -/
def Reachable (guard : Cluster → Action → Prop) (c : Cluster) : Prop :=
  ∃ start, Initial m start ∧ Transition.Reaches (step m) guard start c

end Effects

/-- Requests are built by leaders only. -/
def LeaderBuilds (c : Cluster) : Action → Prop
  | .build n _ => (c.server n).core.role = .leader
  | _ => True

instance (c : Cluster) : (action : Action) → Decidable (LeaderBuilds c action)
  | .build n _ => inferInstanceAs (Decidable ((c.server n).core.role = .leader))
  | .timeout .. | .requestVote .. | .voteAnswer .. | .propose .. | .appendEntries ..
  | .appendAnswer .. | .take .. | .publish .. | .acknowledge .. | .deadlineExceeded ..
  | .compact .. | .crash .. | .crashUncompacted .. | .interrupt .. => isTrue trivial

/-- Requests are built for peers that need nothing the snapshot covers. -/
def Served (c : Cluster) : Action → Prop
  | .build n peer => (c.server n).core.snapshot.lastIncludedIndex <
      ((c.server n).core.nextIndex peer).getD ((c.server n).core.lastLogIndex + 1)
  | _ => True

instance (c : Cluster) : (action : Action) → Decidable (Served c action)
  | .build n peer => inferInstanceAs (Decidable ((c.server n).core.snapshot.lastIncludedIndex <
      ((c.server n).core.nextIndex peer).getD ((c.server n).core.lastLogIndex + 1)))
  | .timeout .. | .requestVote .. | .voteAnswer .. | .propose .. | .appendEntries ..
  | .appendAnswer .. | .take .. | .publish .. | .acknowledge .. | .deadlineExceeded ..
  | .compact .. | .crash .. | .crashUncompacted .. | .interrupt .. => isTrue trivial

/-- Nodes crash between calls only. -/
def CleanCrash : Action → Prop
  | .interrupt .. => False
  | _ => True

instance : (action : Action) → Decidable (CleanCrash action)
  | .interrupt .. => isFalse id
  | .timeout .. | .requestVote .. | .voteAnswer .. | .propose .. | .build .. | .appendEntries ..
  | .appendAnswer .. | .take .. | .publish .. | .acknowledge .. | .deadlineExceeded ..
  | .compact .. | .crash .. | .crashUncompacted .. => isTrue trivial

/-- No snapshot is taken. -/
def NoSnapshot : Action → Prop
  | .compact .. | .crashUncompacted .. => False
  | _ => True

instance : (action : Action) → Decidable (NoSnapshot action)
  | .compact .. | .crashUncompacted .. => isFalse id
  | .timeout .. | .requestVote .. | .voteAnswer .. | .propose .. | .build .. | .appendEntries ..
  | .appendAnswer .. | .take .. | .publish .. | .acknowledge .. | .deadlineExceeded .. | .crash ..
  | .interrupt .. => isTrue trivial

end WalKv
