import WalKv.Driver.Model

/-! The drivers of all nodes and the network between them. Every node runs its threads as its driver
has them, one locked section at a time. Requests stay available once sent, so that they may be lost,
delayed or delivered again; an answer goes to the call that waits for it. -/
namespace WalKv

structure Deployment where
  node : Nat → Driver.State
  /-- The requests that a broadcast of a node still waits for, with the thread that runs it. -/
  inFlight : Nat → List (Nat × AppendCall)
  voteCalls : List VoteCall
  voteAnswers : List VoteAnswer
  appendCalls : List AppendCall
  appendAnswers : List AppendAnswer

/-- A section that needs no message, sends none and starts no broadcast. -/
def Driver.Action.silent : Driver.Action → Bool
  | .tick _ | .voteLost _ | .campaignOver | .propose _ | .abort .. | .replyLost .. | .broadcastOver ..
  | .take _ | .store _ | .snapshot .. | .compact _ | .publish _ => true
  | .campaign _ | .vote .. | .broadcast _ | .build .. | .reply .. | .requestVote ..
  | .appendEntries .. => false

namespace Deployment

inductive Action where
  | drive (n : Nat) (action : Driver.Action)
  | campaign (n : Nat) (clock : Clock)
  | requestVote (call : VoteCall) (clock : Clock)
  | vote (answer : VoteAnswer)
  | broadcast (n thread : Nat)
  | build (n thread peer : Nat)
  | appendEntries (call : AppendCall) (clock : Clock)
  /-- The peer's reply to a request reaches the broadcast that waits for it. -/
  | reply (n thread : Nat) (call : AppendCall) (reply : AppendEntriesReply)
  /-- The process ends between two sections and is started again. -/
  | crash (n : Nat) (clock : Clock)

def Action.node : Action → Nat
  | .drive n _ | .campaign n _ | .broadcast n _ | .build n _ _ | .reply n _ _ _ | .crash n _ => n
  | .requestVote call _ => call.dst
  | .vote answer => answer.candidate
  | .appendEntries call _ => call.dst

def core (d : Deployment) (n : Nat) : Core := (d.node n).core

/-- Node `n` goes on in the given state. -/
def put (d : Deployment) (n : Nat) (calls : List (Nat × AppendCall)) (s : Driver.State) : Deployment :=
  { d with node := Function.update d.node n s, inFlight := Function.update d.inFlight n calls }

/-- The requests of a campaign that has started. -/
def candidacy (clock : Clock) (core : Core) : List VoteCall :=
  match RaftCore.becomeCandidate clock core with
  | (.ok args, core) => core.peers.map fun peer => ⟨core.id, peer, args⟩
  | (.error _, _) => []

def voteReplies (call : VoteCall) (clock : Clock) (core : Core) : List VoteAnswer :=
  match RaftCore.handleRequestVote clock call.args core with
  | (.ok reply, _) => [⟨call.dst, call.src, call.args.term, reply⟩]
  | (.error _, _) => []

section Steps
variable [Bincode]

def appendReplies (call : AppendCall) (clock : Clock) (core : Core) : List AppendAnswer :=
  match RaftCore.handleAppendEntries clock call.args core with
  | (.ok reply, _) => [⟨call.dst, call.src, call.args.term, call.args.lastSent, reply⟩]
  | (.error _, _) => []

variable (m : Membership)

def act (d : Deployment) : Action → Option Deployment
  | .drive n action =>
    if action.silent then (Driver.step (d.node n) action).map (d.put n (d.inFlight n)) else none
  | .campaign n clock =>
    (Driver.step (d.node n) (.campaign clock)).map fun s =>
      { d.put n (d.inFlight n) s with voteCalls := d.voteCalls ++ candidacy clock (d.core n) }
  | .requestVote call clock =>
    if call ∈ d.voteCalls then
      (Driver.step (d.node call.dst) (.requestVote call.args clock)).map fun s =>
        { d.put call.dst (d.inFlight call.dst) s with
          voteAnswers := d.voteAnswers ++ voteReplies call clock (d.core call.dst) }
    else none
  | .vote answer =>
    match (d.node answer.candidate).pc 0 with
    | some (.campaigning campaign) =>
      if answer ∈ d.voteAnswers ∧ answer.term = campaign.term then
        (Driver.step (d.node answer.candidate) (.vote answer.voter answer.reply)).map
          (d.put answer.candidate (d.inFlight answer.candidate))
      else none
    | _ => none
  | .broadcast n thread =>
    -- The tasks of the thread's last broadcast were dropped with it.
    (Driver.step (d.node n) (.broadcast thread)).map
      (d.put n ((d.inFlight n).filter (·.1 ≠ thread)))
  | .build n thread peer =>
    let call : AppendCall := ⟨n, peer, (d.core n).buildAppendEntries peer⟩
    let calls := match (d.node n).pc thread with
      | some (.broadcasting _) => (thread, call) :: d.inFlight n
      | _ => d.inFlight n
    (Driver.step (d.node n) (.build thread peer)).map fun s =>
      { d.put n calls s with appendCalls := d.appendCalls ++ [call] }
  | .appendEntries call clock =>
    if call ∈ d.appendCalls then
      (Driver.step (d.node call.dst) (.appendEntries call.args clock)).map fun s =>
        { d.put call.dst (d.inFlight call.dst) s with
          appendAnswers := d.appendAnswers ++ appendReplies call clock (d.core call.dst) }
    else none
  | .reply n thread call reply =>
    match (d.node n).pc thread with
    | some (.broadcasting broadcast) =>
      if (thread, call) ∈ d.inFlight n ∧
          ⟨call.dst, n, call.args.term, call.args.lastSent, reply⟩ ∈ d.appendAnswers ∧
          broadcast.waiting.find? (·.1 = call.dst) = some (call.dst, call.args.lastSent) then
        (Driver.step (d.node n) (.reply thread call.dst reply)).map
          (d.put n ((d.inFlight n).erase (thread, call)))
      else none
    | _ => none
  | .crash n clock =>
    match Driver.bootstrap clock (m.config n) (d.core n).hardPath (d.node n).store.snapshotDir
        (d.core n).log with
    | .ok s => some (d.put n [] s)
    | .error _ => none

def step (d : Deployment) (action : Action) : Option Deployment :=
  if action.node ∈ m.members then act m d action else none

/-- Every node is started on an empty directory. -/
structure Initial (d : Deployment) : Prop where
  node : ∀ n ∈ m.members, ∃ clock,
    Driver.bootstrap clock (m.config n) HardFile.absent [] FlatLog.empty = .ok (d.node n)
  inFlight : ∀ n ∈ m.members, d.inFlight n = []
  voteCalls : d.voteCalls = []
  voteAnswers : d.voteAnswers = []
  appendCalls : d.appendCalls = []
  appendAnswers : d.appendAnswers = []

def Reachable (guard : Deployment → Action → Prop) (d : Deployment) : Prop :=
  ∃ start, Initial m start ∧ Transition.Reaches (step m) guard start d

end Steps

/-- Requests are built by leaders, for peers that need nothing the snapshot covers. -/
def Orderly (d : Deployment) : Action → Prop
  | .build n _ peer => (d.core n).role = .leader ∧ (d.core n).snapshot.lastIncludedIndex <
      ((d.core n).nextIndex peer).getD ((d.core n).lastLogIndex + 1)
  | _ => True

instance (d : Deployment) : (action : Action) → Decidable (Orderly d action)
  | .build .. => inferInstanceAs (Decidable (_ ∧ _))
  | .drive .. | .campaign .. | .requestVote .. | .vote _ | .broadcast .. | .appendEntries ..
  | .reply .. | .crash .. => isTrue trivial

end Deployment
end WalKv
