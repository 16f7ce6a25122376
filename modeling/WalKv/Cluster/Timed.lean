import WalKv.Cluster.Model
import WalKv.Keyed

/-! The cluster on one clock. All nodes arm their timers and renew their leases by the
same time, which passes between actions. Heartbeats go out in rounds: a round asks every
peer once, folds in the answers, and may renew the lease when no answer is
outstanding. The steps of one node's run loop interleave freely. -/
namespace WalKv

/-- How far a round is with one peer. -/
inductive Exchange where
  /-- The request is not built yet. -/
  | pending
  | sent (call : AppendCall)
  /-- The peer has handled the request, at the given time. -/
  | answered (answer : AppendAnswer) (handled : Nat)
  /-- A successful answer to a request handled at the given time was counted. -/
  | acked (handled : Nat)
  /-- No answer will be counted. -/
  | closed
  deriving DecidableEq, Repr

def Exchange.ackedAt : Exchange → Option Nat
  | .acked handled => some handled
  | _ => none

/-- A call of `broadcast_append_entries`, with the term it read when it started. -/
structure Round where
  node : Nat
  term : Nat
  exchanges : List (Nat × Exchange)
  deriving DecidableEq, Repr

/-- The leader counts for its own lease. -/
def Round.acks (r : Round) : Nat := 1 + r.exchanges.countP (·.2.ackedAt.isSome)

/-- Every exchange has ended. -/
def Round.complete (r : Round) : Bool := r.exchanges.all fun (_, exchange) =>
  exchange.ackedAt.isSome || exchange = .closed

/-- What `tick` decides on while it holds the core. -/
inductive Duty where
  | elect
  | replicate
  | idle
  deriving DecidableEq, Repr

structure Timed where
  cluster : Cluster
  now : Nat
  /-- What run loops have decided on and not yet begun. -/
  due : List (Nat × Duty)
  rounds : List Round

def RaftCore.duty (now : Nat) (core : Core) : Duty :=
  if core.isLeader then .replicate else if core.electionTimedOut now then .elect else .idle

namespace Timed

abbrev core (s : Timed) (n : Nat) : Core := (s.cluster.server n).core

inductive Action where
  | pass (time : Nat)
  | tick (n : Nat)
  /-- What a node does outside of its rounds. -/
  | act (action : WalKv.Action)
  | broadcast (n : Nat)
  | build (round peer : Nat)
  | deliver (round peer draw : Nat)
  /-- A request or an answer is lost. -/
  | lose (round peer : Nat)
  | fold (round peer : Nat)
  | finish (round : Nat)

/-- A node that looks at its clock sees the time of the cluster. -/
def stamped (now : Nat) : WalKv.Action → Bool
  | .timeout _ clock | .requestVote _ clock | .appendEntries _ clock | .crash _ clock
  | .crashUncompacted _ clock _ | .interrupt _ _ clock _ _ _ => clock.now = now
  | .voteAnswer .. | .propose .. | .build .. | .appendAnswer .. | .take .. | .publish ..
  | .acknowledge .. | .deadlineExceeded .. | .compact .. => true

/-- A node starts again without what it had in memory. -/
def forget (n : Nat) (s : Timed) : Timed :=
  { s with due := s.due.filter (·.1 ≠ n), rounds := s.rounds.filter (·.node ≠ n) }

/-- A round goes on to the next state of its exchange with a peer. -/
def exchange (round : Nat) (r : Round) (peer : Nat) (next : Exchange) (s : Timed) : Timed :=
  { s with rounds := s.rounds.set round { r with exchanges := Keyed.put peer next r.exchanges } }

def drop (round : Nat) (s : Timed) : Timed := { s with rounds := s.rounds.eraseIdx round }

/-- The exchange of a round with a peer. -/
def find (round peer : Nat) (s : Timed) : Option (Round × Exchange) :=
  s.rounds[round]?.bind fun r => (r.exchanges.lookup peer).map (r, ·)

def renew (n : Nat) (s : Timed) : Timed :=
  let server := { s.cluster.server n with core := (s.core n).renewLease s.now }
  { s with cluster := s.cluster.apply n { server } }

variable [Bincode] (m : Membership)

def perform (action : WalKv.Action) (s : Timed) : Option Timed :=
  (WalKv.step m s.cluster action).map fun cluster => { s with cluster }

/-- What comes back from a peer that handles a request now. -/
def answer (call : AppendCall) (clock : Clock) (s : Timed) : Exchange :=
  match (RaftCore.handleAppendEntries clock call.args (s.core call.dst)).1 with
  | .ok reply =>
    .answered ⟨call.dst, call.src, call.args.term, call.args.lastSent, reply⟩ clock.now
  | .error _ => .closed

def step (s : Timed) : Action → Option Timed
  | .pass time => some { s with now := s.now + time }
  | .tick n =>
    if n ∈ m.members then some { s with due := (n, (s.core n).duty s.now) :: s.due } else none
  | .act action =>
    if stamped s.now action then
      match action with
      -- Only rounds build requests and fold in answers.
      | .build .. | .appendAnswer .. => none
      | .timeout n clock =>
        if (n, .elect) ∈ s.due then
          perform m (.timeout n clock) { s with due := s.due.erase (n, .elect) } else none
      | .crash n clock => perform m (.crash n clock) (s.forget n)
      | .crashUncompacted n clock index =>
        perform m (.crashUncompacted n clock index) (s.forget n)
      | .interrupt n call clock outcomes snapshot log =>
        perform m (.interrupt n call clock outcomes snapshot log) (s.forget n)
      | action => perform m action s
    else none
  | .broadcast n =>
    if n ∈ m.members ∧ (n, .replicate) ∈ s.due then
      some { s with
        due := s.due.erase (n, .replicate)
        rounds := ⟨n, (s.core n).hard.currentTerm, (s.core n).peers.map (·, .pending)⟩ ::
          s.rounds }
    else none
  | .build round peer =>
    match s.find round peer with
    | some (r, .pending) => perform m (.build r.node peer) (s.exchange round r peer
        (.sent ⟨r.node, peer, (s.core r.node).buildAppendEntries peer⟩))
    | _ => none
  | .deliver round peer draw =>
    match s.find round peer with
    | some (r, .sent call) => perform m (.appendEntries call ⟨s.now, draw⟩)
        (s.exchange round r peer (s.answer call ⟨s.now, draw⟩))
    | _ => none
  | .lose round peer =>
    match s.find round peer with
    | some (r, .sent _) | some (r, .answered ..) => some (s.exchange round r peer .closed)
    | _ => none
  | .fold round peer =>
    match s.find round peer with
    | some (r, .answered answer handled) =>
      if (s.core r.node).hard.currentTerm < answer.reply.term then
        perform m (.appendAnswer answer) (s.drop round)
      else if (s.core r.node).role ≠ .leader ∨ (s.core r.node).hard.currentTerm ≠ r.term then
        some (s.drop round)
      else perform m (.appendAnswer answer) (s.exchange round r peer
        (if answer.reply.success then .acked handled else .closed))
    | _ => none
  | .finish round =>
    match s.rounds[round]? with
    | some r =>
      if r.complete then
        if (s.core r.node).quorum ≤ r.acks then some ((s.drop round).renew r.node)
        else some (s.drop round)
      else none
    | none => none

/-- Every node has just been started. -/
structure Initial (s : Timed) : Prop where
  cluster : WalKv.Initial m s.cluster
  due : s.due = []
  rounds : s.rounds = []

def Reachable (guard : Timed → Action → Prop) (s : Timed) : Prop :=
  ∃ start, Initial m start ∧ Transition.Reaches (step m) guard start s

end Timed
end WalKv
