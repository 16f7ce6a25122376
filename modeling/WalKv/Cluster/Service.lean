import WalKv.Cluster.Elections
import WalKv.Driver.Model

/-! The service that clients talk to: the cluster, each node's store, and the reads under
way. What a node takes from its core goes to its store before it is published. A read checks
the role under the lock of the core and looks at the store under the lock of the store. -/
namespace WalKv

structure GetResponse where
  found : Bool
  value : Bytes
  leaderHint : Nat
  deriving DecidableEq, Repr

/-- What the client takes the value to be. -/
def GetResponse.result (response : GetResponse) : Option Bytes :=
  if response.found then some response.value else none

def GetResponse.ofValue (leaderHint : Nat) : Option Bytes → GetResponse
  | some value => ⟨true, value, leaderHint⟩
  | none => ⟨false, [], leaderHint⟩

theorem GetResponse.result_ofValue (leaderHint : Nat) (value : Option Bytes) :
    (GetResponse.ofValue leaderHint value).result = value := by
  cases value <;> rfl

/-- Where a `get` is between its locked sections. -/
inductive GetState where
  | asked
  /-- The node was leader when it looked. -/
  | passed (leaderHint : Nat)
  | redirected (response : GetResponse)
  | answered (response : GetResponse)
  deriving DecidableEq, Repr

/-- The node is at work on the request. -/
def GetState.serving : GetState → Bool
  | .passed _ => true
  | .asked | .redirected _ | .answered _ => false

structure Get where
  node : Nat
  key : Bytes
  /-- How much of the trace had happened when the client sent the request. -/
  sent : Nat
  state : GetState
  deriving DecidableEq, Repr

structure Service where
  cluster : Cluster
  store : Nat → Store
  /-- Batches that have reached the store and are not published yet. -/
  stored : Nat → List (List LogEntry)
  gets : List Get

namespace Service

abbrev core (s : Service) (n : Nat) : Core := (s.cluster.server n).core

abbrev trace (s : Service) : List Event := s.cluster.trace

inductive Action where
  /-- What a node does with its core alone. -/
  | act (action : WalKv.Action)
  | apply (n : Nat) (batch : List LogEntry)
  /-- Write a snapshot of the store. -/
  | snapshot (n : Nat) (outcome : SnapshotOutcome)
  /-- Compact to the last snapshot that was written. -/
  | compact (n : Nat)
  | publish (n : Nat) (batch : List LogEntry)
  /-- A client sends a request to a node. -/
  | get (n : Nat) (key : Bytes)
  /-- The first section of `get`. -/
  | check (i : Nat)
  /-- The second section of `get`. -/
  | read (i : Nat)

/-- The store that a node opens when it starts again. -/
def reopened (n : Nat) (s : Service) : Store :=
  .opened (s.store n).snapshotThreshold (s.store n).snapshotDir

/-- Start a node again; the reads that it was serving are lost. -/
def reopen (n : Nat) (s : Service) : Service :=
  { s with
    store := Function.update s.store n (s.reopened n)
    stored := Function.update s.stored n []
    gets := s.gets.filter fun get => get.node ≠ n || !get.state.serving }

/-- A request goes on to its next state. -/
def move (i : Nat) (get : Get) (state : GetState) (s : Service) : Service :=
  { s with gets := s.gets.set i { get with state } }

variable [Bincode] (m : Membership)

def perform (action : WalKv.Action) (s : Service) : Option Service :=
  (WalKv.step m s.cluster action).map fun cluster => { s with cluster }

def step (s : Service) : Action → Option Service
  | .act action =>
    match action with
    -- A node publishes after applying, and compacts to the snapshot it has written.
    | .publish .. | .compact .. => none
    -- The core is restored from the snapshot that the store has loaded.
    | .crash n clock =>
      if (s.reopened n).lastSnapshot = (s.core n).snapshot then
        perform m (.crash n clock) (s.reopen n) else none
    | .crashUncompacted n clock index =>
      if (s.reopened n).lastSnapshot = ⟨index, ((s.core n).termAt index).getD 0⟩ then
        perform m (.crashUncompacted n clock index) (s.reopen n) else none
    | .interrupt n call clock outcomes snapshot log =>
      if (s.reopened n).lastSnapshot = snapshot then
        perform m (.interrupt n call clock outcomes snapshot log) (s.reopen n) else none
    | action => perform m action s
  | .apply n batch =>
    if n ∈ m.members ∧ batch ∈ (s.cluster.server n).taken ∧ batch ∉ s.stored n then
      some { s with
        store := Function.update s.store n (Driver.applyBatch batch (s.store n))
        stored := Function.update s.stored n (batch :: s.stored n) }
    else none
  | .snapshot n outcome =>
    if n ∈ m.members ∧ (s.store n).shouldSnapshot then
      let term := ((s.core n).termAt (s.store n).lastApplied).getD 0
      some { s with store := Function.update s.store n ((s.store n).takeSnapshot term outcome).2 }
    else none
  | .compact n => perform m (.compact n (s.store n).lastSnapshot.lastIncludedIndex) s
  | .publish n batch =>
    if batch ∈ s.stored n then
      perform m (.publish n batch)
        { s with stored := Function.update s.stored n ((s.stored n).erase batch) }
    else none
  | .get n key =>
    if n ∈ m.members then some { s with gets := s.gets ++ [⟨n, key, s.trace.length, .asked⟩] }
    else none
  | .check i =>
    match s.gets[i]? with
    | some get =>
      let leaderHint := (s.core get.node).leaderId.getD 0
      if get.state = .asked then
        if (s.core get.node).isLeader then some (s.move i get (.passed leaderHint))
        else some (s.move i get (.redirected ⟨false, [], leaderHint⟩))
      else none
    | none => none
  | .read i =>
    match s.gets[i]? with
    | some get =>
      match get.state with
      | .passed leaderHint =>
        some (s.move i get (.answered (.ofValue leaderHint ((s.store get.node).get get.key))))
      | _ => none
    | none => none

/-- What each action needs and does. -/
inductive Does (s : Service) : Action → Service → Prop where
  | act {call : WalKv.Action} {c : Cluster} (acted : WalKv.step m s.cluster call = some c)
      (running : ∀ n, call.restarts n = false) (unpublished : ∀ n batch, call ≠ .publish n batch) :
      Does s (.act call) { s with cluster := c }
  | restart {call : WalKv.Action} {c : Cluster} (acted : WalKv.step m s.cluster call = some c)
      (restarts : ∀ n, call.restarts n = decide (call.node = n))
      (loaded : (c.server call.node).commitTx = (s.reopened call.node).lastSnapshot.lastIncludedIndex) :
      Does s (.act call) { s.reopen call.node with cluster := c }
  | apply {n : Nat} {batch : List LogEntry} (member : n ∈ m.members)
      (held : batch ∈ (s.cluster.server n).taken) : Does s (.apply n batch) { s with
        store := Function.update s.store n (Driver.applyBatch batch (s.store n))
        stored := Function.update s.stored n (batch :: s.stored n) }
  | snapshot {n : Nat} (member : n ∈ m.members) (term : Nat) (outcome : SnapshotOutcome) :
      Does s (.snapshot n outcome) { s with
        store := Function.update s.store n ((s.store n).takeSnapshot term outcome).2 }
  | compact {n : Nat} {c : Cluster} (acted : WalKv.step m s.cluster
      (.compact n (s.store n).lastSnapshot.lastIncludedIndex) = some c) :
      Does s (.compact n) { s with cluster := c }
  | publish {n : Nat} {batch : List LogEntry} {c : Cluster} (held : batch ∈ s.stored n)
      (acted : WalKv.step m s.cluster (.publish n batch) = some c) : Does s (.publish n batch)
        { s with cluster := c, stored := Function.update s.stored n ((s.stored n).erase batch) }
  | get {n : Nat} (member : n ∈ m.members) (key : Bytes) :
      Does s (.get n key) { s with gets := s.gets ++ [⟨n, key, s.trace.length, .asked⟩] }
  | passed {i : Nat} {get : Get} (found : s.gets[i]? = some get)
      (leads : (s.core get.node).isLeader = true) :
      Does s (.check i) (s.move i get (.passed ((s.core get.node).leaderId.getD 0)))
  | redirected {i : Nat} {get : Get} (found : s.gets[i]? = some get)
      (follows : ¬ (s.core get.node).isLeader = true) : Does s (.check i)
        (s.move i get (.redirected ⟨false, [], (s.core get.node).leaderId.getD 0⟩))
  | read {i leaderHint : Nat} {get : Get} (found : s.gets[i]? = some get)
      (serving : get.state = .passed leaderHint) : Does s (.read i)
        (s.move i get (.answered (.ofValue leaderHint ((s.store get.node).get get.key))))

section Inversion
variable {m} {s s' : Service}

theorem perform_ok {call : WalKv.Action} (performed : s.perform m call = some s') :
    ∃ c, WalKv.step m s.cluster call = some c ∧ s' = { s with cluster := c } := by
  simp only [perform, Option.map_eq_some_iff] at performed
  obtain ⟨c, stepped, rfl⟩ := performed
  exact ⟨c, stepped, rfl⟩

theorem restart_commitTx {c : Cluster} {n : Nat} {clock : Clock} {file : HardFile}
    {snapshot : SnapshotMeta} {log : FlatLog} {e : Effect}
    (restarted : restart m clock n file snapshot log = some e) :
    ((c.apply n e).server n).commitTx = snapshot.lastIncludedIndex := by
  obtain ⟨core, restored, rfl⟩ := restart_ok restarted
  obtain ⟨_, _, _, _, _, rfl⟩ := RaftCore.restore_ok restored
  simp [Cluster.apply, Server.fresh, RaftCore.armed, RaftCore.assemble]

/-- A node starts again on the snapshot that its store opens with. -/
theorem restart_does {call : WalKv.Action} {snapshot : SnapshotMeta}
    (stepped : (s.reopen call.node).perform m call = some s')
    (loaded : (s.reopened call.node).lastSnapshot = snapshot)
    (restarts : ∀ n, call.restarts n = decide (call.node = n))
    (starts : ∀ e, effect m s.cluster call = some e →
      ∃ clock file log, restart m clock call.node file snapshot log = some e) :
    Does m s (.act call) s' := by
  obtain ⟨c, acted, rfl⟩ := perform_ok stepped
  refine .restart acted restarts ?_
  obtain ⟨_, e, acts, rfl⟩ := step_ok acted
  obtain ⟨clock, file, log, restarted⟩ := starts e acts
  rw [restart_commitTx restarted, loaded]

theorem act_does {call : WalKv.Action} (stepped : step m s (.act call) = some s') :
    Does m s (.act call) s' := by
  simp only [step] at stepped
  split at stepped
  · cases stepped
  · cases stepped
  · simp only [Option.ite_none_right_eq_some] at stepped
    exact restart_does stepped.2 stepped.1 (fun _ => rfl) fun e acts => ⟨_, _, _, acts⟩
  · simp only [Option.ite_none_right_eq_some] at stepped
    refine restart_does stepped.2 stepped.1 (fun _ => rfl) fun e acts => ?_
    cases effect_acts acts with
    | crashUncompacted _ _ restarted => exact ⟨_, _, _, restarted⟩
  · simp only [Option.ite_none_right_eq_some] at stepped
    refine restart_does stepped.2 stepped.1 (fun _ => rfl) fun e acts => ?_
    cases effect_acts acts with
    | interrupt _ restarted => exact ⟨_, _, _, restarted⟩
  · rename_i unpublished _ running uncompacted whole
    obtain ⟨c, acted, rfl⟩ := perform_ok stepped
    refine .act acted (fun n => ?_) unpublished
    cases call with
    | crash v clock => exact (running v clock rfl).elim
    | crashUncompacted v clock index => exact (uncompacted v clock index rfl).elim
    | interrupt v call clock outcomes snapshot log =>
      exact (whole v call clock outcomes snapshot log rfl).elim
    | _ => rfl

theorem step_does {action : Action} (stepped : step m s action = some s') : Does m s action s' := by
  cases action with
  | act call => exact act_does stepped
  | apply n batch =>
    simp only [step, Option.ite_none_right_eq_some] at stepped
    obtain ⟨⟨member, held, _⟩, ⟨⟩⟩ := stepped
    exact .apply member held
  | snapshot n outcome =>
    simp only [step, Option.ite_none_right_eq_some] at stepped
    obtain ⟨⟨member, _⟩, ⟨⟩⟩ := stepped
    exact .snapshot member _ outcome
  | compact n =>
    obtain ⟨c, acted, rfl⟩ := perform_ok stepped
    exact .compact acted
  | publish n batch =>
    simp only [step, Option.ite_none_right_eq_some] at stepped
    obtain ⟨held, stepped⟩ := stepped
    obtain ⟨c, acted, rfl⟩ := perform_ok stepped
    exact .publish held acted
  | get n key =>
    simp only [step, Option.ite_none_right_eq_some] at stepped
    obtain ⟨member, ⟨⟩⟩ := stepped
    exact .get member key
  | check i =>
    simp only [step] at stepped
    split at stepped
    · rename_i get found
      split_ifs at stepped with asked leads
      · cases stepped
        exact .passed found leads
      · cases stepped
        exact .redirected found leads
    · cases stepped
  | read i =>
    simp only [step] at stepped
    split at stepped
    · rename_i get found
      split at stepped
      · rename_i leaderHint serving
        cases stepped
        exact .read found serving
      · cases stepped
    · cases stepped

end Inversion

/-- Every node has just been started on an empty directory. -/
structure Initial (s : Service) : Prop where
  cluster : WalKv.Initial m s.cluster
  store : ∀ n ∈ m.members, s.store n = Store.opened (m.config n).snapshotThreshold []
  stored : ∀ n ∈ m.members, s.stored n = []
  gets : s.gets = []

def Reachable (guard : Service → Action → Prop) (s : Service) : Prop :=
  ∃ start, Initial m start ∧ Transition.Reaches (step m) guard start s

end Service
end WalKv
