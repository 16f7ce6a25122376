import WalKv.Driver.Model
import WalKv.Cluster.Elections

/-! Who sends AppendEntries. A broadcast decides to replicate, reads its peers
and builds every request under different locks, and only the first of these
sections looks at the role. Requests speak for an elected leader as long as the
node keeps its leadership while requests are still to be built. -/
namespace WalKv
namespace Driver
open RaftCore Transition

/-- The requests handed to the transport were built by the leader of their term. -/
def SpokenAsLeader (s : State) : Prop :=
  ∀ x ∈ s.sent, x.role = .leader ∧ x.args.term ∈ x.won

/-- Some request is still to be built. -/
def Pending (s : State) : Prop := s.tasks ≠ [] ∨ .replicate ∈ s.threads

instance (s : State) : Decidable (Pending s) := inferInstanceAs (Decidable (_ ∨ _))

/-- The message makes a leader step down. -/
def stepsDown (s : State) : Action → Bool
  | .requestVote args _ => s.core.hard.currentTerm < args.term
  | .appendEntries args _ => s.core.hard.currentTerm ≤ args.term
  | .reply _ _ reply => s.core.hard.currentTerm < reply.term
  | _ => false

/-- No message that makes a leader step down is handled while a request is still
to be built. -/
def Steady (s : State) (action : Action) : Prop := stepsDown s action = true → ¬ Pending s

instance (s : State) (action : Action) : Decidable (Steady s action) :=
  inferInstanceAs (Decidable (_ → _))

def Pc.campaigns : Pc → Bool
  | .elect | .campaigning _ => true
  | _ => false

structure Speaks (s : State) : Prop where
  running : s.core.Running
  elected : s.core.role = .leader → s.core.hard.currentTerm ∈ s.won
  pending : Pending s → s.core.role = .leader
  campaigns : ∀ i, (s.pc i).any Pc.campaigns = true → i = 0 ∧ s.core.role ≠ .leader
  sent : SpokenAsLeader s

variable {s s' : State} {core : Core} {clock : Clock} {thread peer : Nat}

section Cores

/-- The core does not become leader, and a leader that stays leader keeps its term. -/
structure Demotes (core core' : Core) : Prop where
  running : core'.Running
  leads : core'.role = .leader →
    core.role = .leader ∧ core'.hard.currentTerm = core.hard.currentTerm

theorem Demotes.of_ballot {core' : Core} (running : core.Running)
    (same : core'.ballot = core.ballot) : Demotes core core' := by
  have role : core'.role = core.role := congrArg Ballot.role same
  have hard : core'.hard = core.hard := congrArg Ballot.hard same
  exact ⟨running.congr same, fun leads => ⟨role ▸ leads, hard ▸ rfl⟩⟩

theorem Demotes.follower {core' : Core} (running : core'.Running) (role : core'.role = .follower) :
    Demotes core core' :=
  ⟨running, fun leads => absurd (role.symm.trans leads) (by decide)⟩

theorem Demotes.observe (running : core.Running) (term : Nat) (leader : Option Nat) :
    Demotes core (core.observe term leader) := by
  refine ⟨running.observe term leader, fun leads => ?_⟩
  rcases observe_cases term leader core with ⟨_, follower⟩ | same
  · exact absurd (follower.symm.trans leads) (by decide)
  · rw [same] at leads ⊢
    exact ⟨leads, rfl⟩

theorem Demotes.requestVote (running : core.Running) (args : RequestVoteArgs) :
    Demotes core (handleRequestVote clock args core).2 := by
  rw [running.handleRequestVote]
  have seen := Demotes.observe running args.term none
  split_ifs
  · exact .of_ballot running rfl
  · exact ⟨⟨rfl, rfl, seen.running.timed⟩, fun leads => seen.leads leads⟩
  · exact seen

theorem requestVote_keeps (running : core.Running) {args : RequestVoteArgs}
    (old : args.term ≤ core.hard.currentTerm) :
    (handleRequestVote clock args core).2.role = core.role := by
  have same : core.observe args.term none = core := by
    rw [observe, if_neg (Nat.not_lt.mpr old)]
  rw [running.handleRequestVote, same]
  split_ifs <;> rfl

theorem Demotes.appendEntries [Bincode] (running : core.Running) (args : AppendEntriesArgs) :
    Demotes core (handleAppendEntries clock args core).2 := by
  rw [running.handleAppendEntries]
  split_ifs
  · exact .of_ballot running rfl
  · have same := (matchAndStore_side args ((core.recognised args).armed clock)).ballot
    rw [SameBallot, armed_ballot] at same
    refine .follower ((running.recognised args).congr same) ?_
    exact (congrArg Ballot.role same).trans (recognised_role core args)

theorem appendEntries_keeps [Bincode] (running : core.Running) {args : AppendEntriesArgs}
    (old : args.term < core.hard.currentTerm) :
    (handleAppendEntries clock args core).2.role = core.role := by
  rw [running.handleAppendEntries, if_pos old]

theorem Demotes.appendAsLeader [Bincode] (running : core.Running) (command : Command) :
    Demotes core (appendAsLeader command core).2 :=
  .of_ballot running (appendAsLeader_side command core).ballot

end Cores

namespace Speaks

/-- A step that sends nothing and wins nothing. -/
theorem act (inv : Speaks s) (demotes : Demotes s.core s'.core)
    (kept : Pending s → s'.core.role = .leader)
    (threads : ∀ i pc, s'.pc i = some pc → s.pc i = some pc ∨
      (pc = .replicate → s'.core.role = .leader) ∧
        (pc.campaigns = true → i = 0 ∧ s'.core.role ≠ .leader))
    (tasks : ∀ t ∈ s'.tasks, t ∈ s.tasks) (sent : s'.sent = s.sent) (won : s'.won = s.won) :
    Speaks s' where
  running := demotes.running
  elected leads := by
    obtain ⟨before, same⟩ := demotes.leads leads
    rw [won, same]
    exact inv.elected before
  pending := by
    rintro (waiting | deciding)
    · obtain ⟨t, member⟩ := List.exists_mem_of_ne_nil _ waiting
      exact kept (Or.inl (List.ne_nil_of_mem (tasks t member)))
    · obtain ⟨i, found⟩ := List.getElem?_of_mem deciding
      rcases threads i _ found with old | ⟨leads, _⟩
      · exact kept (Or.inr (List.mem_of_getElem? old))
      · exact leads rfl
  campaigns i campaigns := by
    cases found : s'.pc i with
    | none => simp [found] at campaigns
    | some pc =>
      rw [found, Option.any_some] at campaigns
      rcases threads i pc found with old | ⟨_, quiet⟩
      · obtain ⟨first, role⟩ := inv.campaigns i (by rw [old]; exact campaigns)
        exact ⟨first, fun leads => role (demotes.leads leads).1⟩
      · exact quiet campaigns
  sent := by
    rw [SpokenAsLeader, sent]
    exact inv.sent

/-- A thread moves on to a place where it neither campaigns nor replicates. -/
theorem goto {thread : Nat} {pc : Pc} (inv : Speaks s) (demotes : Demotes s.core core)
    (kept : Pending s → core.role = .leader) (next : pc = .replicate → core.role = .leader)
    (campaign : pc.campaigns = true → thread = 0 ∧ core.role ≠ .leader)
    (same : s'.core = core) (threads : s'.threads = s.threads.set thread pc)
    (tasks : s'.tasks = s.tasks) (sent : s'.sent = s.sent) (won : s'.won = s.won) :
    Speaks s' := by
  subst same
  refine inv.act demotes kept (fun i p found => ?_) (fun t member => tasks ▸ member) sent won
  rw [State.pc, threads, List.getElem?_set] at found
  split_ifs at found with here
  · cases found
    exact Or.inr ⟨next, fun campaigns => here ▸ campaign campaigns⟩
  · exact Or.inl found

/-- The same when the core keeps its role. -/
theorem stay {thread : Nat} {pc : Pc} (inv : Speaks s) (ballot : core.ballot = s.core.ballot)
    (next : pc = .replicate → s.core.role = .leader)
    (campaign : pc.campaigns = true → thread = 0 ∧ s.core.role ≠ .leader)
    (same : s'.core = core) (threads : s'.threads = s.threads.set thread pc)
    (tasks : s'.tasks = s.tasks) (sent : s'.sent = s.sent) (won : s'.won = s.won) :
    Speaks s' := by
  have role : core.role = s.core.role := congrArg Ballot.role ballot
  exact inv.goto (.of_ballot inv.running ballot) (fun pending => role ▸ inv.pending pending)
    (fun isNext => role ▸ next isNext) (fun campaigns => role ▸ campaign campaigns) same threads
    tasks sent won

theorem not_pending (inv : Speaks s) (role : s.core.role ≠ .leader) : ¬ Pending s :=
  fun pending => role (inv.pending pending)

theorem tick (inv : Speaks s) (now : Nat) : Speaks (tickStep now s) := by
  unfold tickStep
  split_ifs with leads expired
  · have leads : s.core.role = .leader := by simpa [isLeader] using leads
    exact inv.stay rfl (fun _ => leads) (by simp [Pc.campaigns]) rfl rfl rfl rfl rfl
  · have follows : s.core.role ≠ .leader := by simpa [isLeader] using leads
    exact inv.stay rfl (by simp) (fun _ => ⟨rfl, follows⟩) rfl rfl rfl rfl rfl
  · exact inv.stay rfl (by simp) (by simp [Pc.campaigns]) rfl rfl rfl rfl rfl

theorem campaign (inv : Speaks s) (clock : Clock) (at_elect : s.pc 0 = some .elect) :
    Speaks (campaignStep clock s) := by
  have follows : s.core.role ≠ .leader := (inv.campaigns 0 (by rw [at_elect]; rfl)).2
  rw [campaignStep, inv.running.becomeCandidate]
  have demotes : Demotes s.core (s.core.campaigning clock) :=
    ⟨⟨rfl, rfl, inv.running.timed⟩, by simp [campaigning]⟩
  refine inv.goto demotes ?_ (by simp) (fun _ => ⟨rfl, by simp [campaigning]⟩) rfl rfl rfl rfl rfl
  · exact fun pending => absurd pending (inv.not_pending follows)

/-- A campaign that wins records its term before anything is sent for it. -/
theorem win [Bincode] {campaign : Campaign} (inv : Speaks s)
    (at_campaign : s.pc 0 = some (.campaigning campaign)) : Speaks (winStep s) := by
  have follows : s.core.role ≠ .leader := (inv.campaigns 0 (by rw [at_campaign]; rfl)).2
  have same := (appendAsLeader_side .noop s.core.becomeLeader).ballot
  have leads (pc : Pc) (quiet : pc ≠ .replicate) (calm : pc.campaigns = false) :
      Speaks (State.goto { s with
        core := (appendAsLeader .noop s.core.becomeLeader).2
        won := s.core.hard.currentTerm :: s.won } 0 pc) := by
    have running : s.core.becomeLeader.Running :=
      ⟨inv.running.durable, inv.running.saved, inv.running.timed⟩
    have hard : (appendAsLeader .noop s.core.becomeLeader).2.hard = s.core.hard :=
      congrArg Ballot.hard same
    have role : (appendAsLeader .noop s.core.becomeLeader).2.role = .leader :=
      congrArg Ballot.role same
    refine ⟨running.congr same, fun _ => ?_, fun _ => role, fun i campaigns => ?_, inv.sent⟩
    · simp [State.goto, hard]
    · simp only [State.pc, State.goto, List.getElem?_set] at campaigns
      split_ifs at campaigns with here within
      · simp [calm] at campaigns
      · simp at campaigns
      · exact absurd (inv.campaigns i campaigns).1.symm here
  unfold winStep
  split <;> rename_i ran <;> rw [ran] at leads
  · exact leads .apply (by simp) rfl
  · exact leads .tick (by simp) rfl

theorem vote [Bincode] {campaign : Campaign} (inv : Speaks s) (reply : RequestVoteReply)
    (at_campaign : s.pc 0 = some (.campaigning campaign)) :
    Speaks (voteStep peer reply campaign s) := by
  have follows : s.core.role ≠ .leader := (inv.campaigns 0 (by rw [at_campaign]; rfl)).2
  unfold voteStep
  split_ifs with newer
  · rw [inv.running.becomeFollower newer]
    exact inv.goto (.observe inv.running _ _)
      (fun pending => absurd pending (inv.not_pending follows)) (by simp) (by simp [Pc.campaigns])
      rfl rfl rfl rfl rfl
  · exact inv.stay rfl (by simp) (by simp [Pc.campaigns]) rfl rfl rfl rfl rfl
  · exact inv.win at_campaign
  · exact inv.stay rfl (by simp) (fun _ => ⟨rfl, follows⟩) rfl rfl rfl rfl rfl
  · exact inv.stay rfl (by simp) (fun _ => ⟨rfl, follows⟩) rfl rfl rfl rfl rfl

theorem propose [Bincode] (inv : Speaks s) (command : Command) : Speaks (proposeStep command s) := by
  have added {core : Core} {pc : Pc} (demotes : Demotes s.core core)
      (role : core.role = s.core.role) (calm : pc.campaigns = false)
      (next : pc = .replicate → s.core.role = .leader) :
      Speaks { s with core, threads := s.threads ++ [pc] } := by
    refine inv.act demotes (fun pending => role.trans (inv.pending pending)) (fun i p found => ?_)
      (fun _ member => member) rfl rfl
    rw [State.pc, List.getElem?_append] at found
    split_ifs at found
    · exact Or.inl found
    · obtain rfl : pc = p := by
        have member := List.mem_of_getElem? found
        exact (List.mem_singleton.mp member).symm
      exact Or.inr ⟨fun isNext => role.trans (next isNext), by simp [calm]⟩
  unfold proposeStep
  split_ifs with leads
  · have demotes := Demotes.appendAsLeader inv.running command
    have role : (appendAsLeader command s.core).2.role = s.core.role :=
      congrArg Ballot.role (appendAsLeader_side command s.core).ballot
    split <;> rename_i ran <;> rw [ran] at demotes role
    · exact added demotes role rfl fun _ => by simpa [isLeader] using leads
    · exact added demotes role rfl (by simp)
  · exact added (.of_ballot inv.running rfl) rfl rfl (by simp)

/-- A broadcast spawns its tasks; it was about to, so the node leads. -/
theorem broadcast (inv : Speaks s) (ready : s.pc thread = some .replicate) :
    Speaks (broadcastStep thread s) := by
  have leads := inv.pending (Or.inr (List.mem_of_getElem? ready))
  refine ⟨inv.running, inv.elected, fun _ => leads, fun i campaigns => ?_, inv.sent⟩
  simp only [broadcastStep, State.pc, State.goto, List.getElem?_set] at campaigns
  split_ifs at campaigns with here within
  · simp [Pc.campaigns] at campaigns
  · simp at campaigns
  · exact inv.campaigns i campaigns

theorem build (inv : Speaks s) (spawned : (thread, peer) ∈ s.tasks) :
    Speaks (buildStep thread peer s) := by
  have leads := inv.pending (Or.inl (List.ne_nil_of_mem spawned))
  have spoken : SpokenAsLeader { s with
      tasks := s.tasks.erase (thread, peer)
      sent := ⟨peer, s.core.buildAppendEntries peer, s.core.role, s.won⟩ :: s.sent } := by
    intro x member
    rcases List.mem_cons.mp member with rfl | old
    · exact ⟨leads, inv.elected leads⟩
    · exact inv.sent x old
  unfold buildStep
  split
  · refine ⟨inv.running, inv.elected, fun _ => leads, fun i campaigns => ?_, spoken⟩
    simp only [State.pc, State.goto, List.getElem?_set] at campaigns
    split_ifs at campaigns with here within
    · simp [Pc.campaigns] at campaigns
    · simp at campaigns
    · exact inv.campaigns i campaigns
  · exact ⟨inv.running, inv.elected, fun _ => leads, inv.campaigns, spoken⟩

theorem reply {lastSent : Nat} {reply : AppendEntriesReply} {broadcast : Broadcast}
    (inv : Speaks s)
    (steady : s.core.hard.currentTerm < reply.term → ¬ Pending s) :
    Speaks (replyStep thread peer lastSent reply broadcast s) := by
  rw [replyStep]
  by_cases newer : s.core.hard.currentTerm < reply.term
  · rw [if_pos newer, inv.running.becomeFollower newer]
    exact inv.goto (.observe inv.running _ _) (fun pending => absurd pending (steady newer))
      (by simp) (by simp [Pc.campaigns]) rfl rfl rfl rfl rfl
  rw [if_neg newer]
  by_cases gone : (!s.core.isLeader || s.core.hard.currentTerm ≠ broadcast.term) = true
  · rw [if_pos gone]
    exact inv.stay rfl (by simp) (by simp [Pc.campaigns]) rfl rfl rfl rfl rfl
  · rw [if_neg gone]
    exact inv.stay (onAppendEntriesReply_side peer lastSent reply s.core).ballot (by simp)
      (by simp [Pc.campaigns]) rfl rfl rfl rfl rfl

theorem broadcastOver {now : Nat} {broadcast : Broadcast} (inv : Speaks s) :
    Speaks (broadcastOverStep thread now broadcast s) := by
  unfold broadcastOverStep
  split_ifs
  · have same : (s.core.renewLease now).ballot = s.core.ballot := by
      unfold renewLease
      split_ifs <;> rfl
    exact inv.stay same (by simp) (by simp [Pc.campaigns]) rfl rfl rfl rfl rfl
  · exact inv.stay rfl (by simp) (by simp [Pc.campaigns]) rfl rfl rfl rfl rfl

theorem idle (inv : Speaks s) (ballot : core.ballot = s.core.ballot) (same : s'.core = core)
    (threads : s'.threads = s.threads.set thread (if thread = 0 then .tick else .done))
    (tasks : s'.tasks = s.tasks) (sent : s'.sent = s.sent) (won : s'.won = s.won) :
    Speaks s' := by
  refine inv.stay ballot ?_ ?_ same threads tasks sent won <;> split_ifs <;> simp [Pc.campaigns]

theorem take (inv : Speaks s) : Speaks (takeStep thread s) := by
  have same : (s.core.takeCommitted).2.ballot = s.core.ballot := (takeLoop_side _ _).ballot
  unfold takeStep
  simp only
  split_ifs
  · exact inv.idle same rfl rfl rfl rfl rfl
  · exact inv.stay same (by simp) (by simp [Pc.campaigns]) rfl rfl rfl rfl rfl

theorem store (inv : Speaks s) (batch : List LogEntry) : Speaks (storeStep thread batch s) := by
  refine inv.stay rfl ?_ ?_ rfl rfl rfl rfl rfl <;> split_ifs <;> simp [Pc.campaigns]

theorem snapshot {latest : Nat} (inv : Speaks s) (outcome : SnapshotOutcome) :
    Speaks (snapshotStep thread latest outcome s) := by
  cases outcome with
  | written removed => exact inv.stay rfl (by simp) (by simp [Pc.campaigns]) rfl rfl rfl rfl rfl
  | failed | left => exact inv.idle rfl rfl rfl rfl rfl rfl

theorem compact {latest : Nat} (inv : Speaks s) (snapshotMeta : SnapshotMeta) :
    Speaks (compactStep thread latest snapshotMeta s) := by
  have same : (RaftCore.compact snapshotMeta s.core).2.ballot = s.core.ballot :=
    (compact_side snapshotMeta s.core).ballot
  unfold compactStep
  split <;> rename_i ran <;> rw [ran] at same
  · exact inv.stay same (by simp) (by simp [Pc.campaigns]) rfl rfl rfl rfl rfl
  · exact inv.idle same rfl rfl rfl rfl rfl

theorem handle (inv : Speaks s) (demotes : Demotes s.core core)
    (kept : Pending s → core.role = s.core.role) : Speaks { s with core } :=
  inv.act demotes (fun pending => (kept pending).trans (inv.pending pending))
    (fun _ _ found => Or.inl found) (fun _ member => member) rfl rfl

theorem step [Bincode] {action : Action} (inv : Speaks s) (steady : Steady s action)
    (stepped : Driver.step s action = some s') : Speaks s' := by
  cases step_does stepped with
  | tick => exact inv.tick _
  | campaign here => exact inv.campaign _ here
  | vote here => exact inv.vote _ here
  | voteLost here =>
    have follows := (inv.campaigns 0 (by rw [here]; rfl)).2
    exact inv.stay rfl (by simp) (fun _ => ⟨rfl, follows⟩) rfl rfl rfl rfl rfl
  | propose => exact inv.propose _
  | broadcast here => exact inv.broadcast here
  | build spawned => exact inv.build spawned
  | abort =>
    exact inv.act (.of_ballot inv.running rfl) inv.pending (fun _ _ found => Or.inl found)
      (fun _ member => List.mem_of_mem_erase member) rfl rfl
  | reply => exact inv.reply fun newer => steady (by simpa [stepsDown] using newer)
  | broadcastOver => exact inv.broadcastOver
  | take => exact inv.take
  | store => exact inv.store _
  | snapshot => exact inv.snapshot _
  | compact => exact inv.compact _
  | publish => exact inv.idle rfl rfl rfl rfl rfl rfl
  | requestVote =>
    refine inv.handle (.requestVote inv.running _) fun pending => ?_
    refine requestVote_keeps inv.running (Nat.le_of_not_lt fun newer => ?_)
    exact steady (by simpa [stepsDown] using newer) pending
  | appendEntries =>
    refine inv.handle (.appendEntries inv.running _) fun pending => ?_
    refine appendEntries_keeps inv.running (Nat.lt_of_not_le fun newer => ?_)
    exact steady (by simpa [stepsDown] using newer) pending
  | campaignOver | replyLost =>
    exact inv.stay rfl (by simp) (by simp [Pc.campaigns]) rfl rfl rfl rfl rfl

end Speaks

theorem speaks_bootstrap [Bincode] {cfg : Config} {file : HardFile} {dir : SnapshotDir}
    {log : FlatLog} (started : bootstrap clock cfg file dir log = .ok s)
    (durable : file.outcomes = []) : Speaks s := by
  obtain ⟨core, restored, started⟩ := Except.of_bind_ok started
  cases started
  obtain ⟨records, entries, _, _, timed, rfl⟩ := restore_ok restored
  refine ⟨⟨durable, rfl, timed⟩, (fun leads => by cases leads), ?_, fun i campaigns => ?_, ?_⟩
  · rintro (tasks | deciding)
    · exact absurd rfl tasks
    · simp at deciding
  · cases i with
    | zero => cases campaigns
    | succ i => cases campaigns
  · intro x member
    cases member

/-- In every run in which a node never steps down while one of its requests is
still to be built, every request was built by the elected leader of its term. -/
theorem only_leaders_speak [Bincode] {cfg : Config} {file : HardFile} {dir : SnapshotDir}
    {log : FlatLog} {start : State} (started : bootstrap clock cfg file dir log = .ok start)
    (durable : file.outcomes = []) (run : Reaches step Steady start s) : SpokenAsLeader s :=
  (run.invariant (speaks_bootstrap started durable)
    fun inv steady stepped => inv.step steady stepped).sent

/-- Node 1 of three, just started. -/
def fresh : State :=
  ⟨bootCore trio ⟨0, 0⟩ 1, Store.opened (trio.config 1).snapshotThreshold [], 0, [.tick], [], [], []⟩

theorem fresh_bootstrap :
    bootstrap ⟨0, 0⟩ (trio.config 1) HardFile.absent [] FlatLog.empty = .ok fresh := by
  have restored : restore ⟨0, 0⟩ (trio.config 1) HardFile.absent default FlatLog.empty =
      .ok (bootCore trio ⟨0, 0⟩ 1) := restore_eq rfl rfl (trio_timed 1 (by decide))
  show (restore ⟨0, 0⟩ (trio.config 1) HardFile.absent default FlatLog.empty >>= _) = _
  rw [restored]
  rfl

/-- The run loop campaigns and wins. -/
def winning : List Action :=
  [.tick 1000000000, .campaign ⟨0, 0⟩, .vote 2 ⟨1, true⟩, .take 0]

theorem only_leaders_speak_heartbeat : ∃ start s,
    bootstrap ⟨0, 0⟩ (trio.config 1) HardFile.absent [] FlatLog.empty = .ok start ∧
    Reaches step Steady start s ∧ s.sent ≠ [] ∧ SpokenAsLeader s := by
  have ran : ((execute step Steady fresh (winning ++ [.tick 0, .broadcast 0, .build 0 2])).any
      fun s => decide (s.sent ≠ [])) = true := by
    decide +kernel
  obtain ⟨s, reached, some_sent⟩ := execute_shows ran
  exact ⟨fresh, s, fresh_bootstrap, reached, of_decide_eq_true some_sent,
    only_leaders_speak fresh_bootstrap rfl reached⟩

/-- A vote request of a later term arrives between the start of a broadcast and
its first request, which is then built by a follower in a term it has not won. -/
theorem deposed_leader_speaks : ∃ start s,
    bootstrap ⟨0, 0⟩ (trio.config 1) HardFile.absent [] FlatLog.empty = .ok start ∧
    Reaches step (fun _ _ => True) start s ∧ ¬ SpokenAsLeader s := by
  have ran : ((execute step (fun _ _ => True) fresh (winning ++
      [.tick 0, .broadcast 0, .requestVote ⟨5, 2, 9, 9⟩ ⟨0, 0⟩, .build 0 2])).any
      fun s => s.sent.any fun x => x.role ≠ .leader && x.args.term = 5 && x.won = [1]) = true := by
    decide +kernel
  obtain ⟨s, reached, shown⟩ := execute_shows ran
  obtain ⟨x, member, built⟩ := List.any_eq_true.mp shown
  simp only [Bool.and_eq_true, decide_eq_true_eq] at built
  exact ⟨fresh, s, fresh_bootstrap, reached, fun spoken => built.1.1 (spoken x member).1⟩

end Driver
end WalKv
