import WalKv.Cluster.Simulation.Leading
import WalKv.Cluster.Simulation.Following

/-! Whole runs refine the protocol as long as requests are built by leaders, for
peers that need nothing compacted, and nodes crash between calls. Without
snapshots the second condition holds by itself. -/
namespace WalKv
open RaftCore
open Consensus (Led Known Extends Invariant)

variable [Bincode] {m : Membership} {c c' : Cluster} {a : Spec} {n : Nat} {e : Effect}
  {action : Action}

theorem effect_moves [LawfulBincode] (rel : Refines m c a) (member : action.node ∈ m.members)
    (leading : LeaderBuilds c action) (served : Served c action) (clean : CleanCrash action)
    (acted : effect m c action = some e) : ∃ a', Moves m c a action.node e a' := by
  cases effect_acts acted with
  | timeout n clock => exact timeout_moves rel member clock
  | requestVote clock sent => exact requestVote_moves rel sent clock
  | voteAnswer running sent asked waits => exact voteAnswer_moves rel member sent running asked waits
  | propose n command => exact propose_moves rel member command
  | build => exact ⟨a, build_moves rel member leading served⟩
  | appendEntries clock sent => exact appendEntries_moves rel member sent clock
  | appendAnswer given => exact appendAnswer_moves rel member given
  | take n => exact ⟨a, take_moves rel member⟩
  | publish | acknowledge | deadlineExceeded =>
    exact ⟨a, .stay rel (rel.node _ member) (fun role => ⟨role, rfl⟩) rfl rfl (by simp)
      (by simp [Uncontested]) (by simp) (by simp)⟩
  | compact handed => exact ⟨a, compact_moves rel member handed⟩
  | crash restarted => exact restart_moves rel member (crash_restarts rel member restarted)
  | crashUncompacted newer applied restarted =>
    exact restart_moves rel member (crashUncompacted_restarts rel member newer applied restarted)
  | interrupt => exact clean.elim

theorem refines_step [LawfulBincode] (rel : Refines m c a) (leading : LeaderBuilds c action)
    (served : Served c action) (clean : CleanCrash action)
    (stepped : step m c action = some c') : ∃ a', Refines m c' a' := by
  obtain ⟨member, e, acted, rfl⟩ := step_ok stepped
  obtain ⟨a', moves⟩ := effect_moves rel member leading served clean acted
  exact ⟨a', rel.act member (effect_rules rel.elections member acted) moves⟩

theorem stands_initial (start : Initial m c) (member : n ∈ m.members) :
    Stands (Consensus.initial : Spec) n (c.core n) := by
  obtain ⟨clock, core, restored, server⟩ := start.server n member
  obtain ⟨records, entries, read, loaded, _, rfl⟩ := restore_ok restored
  cases read
  cases loaded
  rw [Cluster.core, server]
  exact
    { sound := ⟨⟨le_rfl, rfl, .nil, rfl⟩, ⟨le_rfl, le_rfl, .nil⟩, le_rfl⟩
      term := rfl
      commit := rfl
      compacted := le_rfl
      applied := le_rfl
      leads := fun role => by cases role }

theorem refines_initial (start : Initial m c) : Refines m c Consensus.initial where
  run := .refl
  elections := elections_initial start
  node _ := stands_initial start
  storable led := by
    obtain ⟨_, lead⟩ := led
    cases lead
  asked call sent := by simp [start.voteCalls] at sent
  voted vote := by simp [start.trace] at vote
  sent call sent := by simp [start.appendCalls] at sent
  acked answer given := by simp [start.appendAnswers] at given
  elected won := by simp [start.trace] at won
  wonBy led := by
    obtain ⟨_, lead⟩ := led
    cases lead
  committed event := by simp [start.trace] at event
  applied event := by simp [start.trace] at event

/-- What the refinement needs of a run. -/
def Orderly (c : Cluster) (action : Action) : Prop :=
  LeaderBuilds c action ∧ Served c action ∧ CleanCrash action

instance (c : Cluster) (action : Action) : Decidable (Orderly c action) :=
  inferInstanceAs (Decidable (_ ∧ _ ∧ _))

theorem reachable_refines [LawfulBincode] (run : Reachable m Orderly c) :
    ∃ a, Refines m c a := by
  obtain ⟨start, initial, run⟩ := run
  exact run.invariant (P := fun c => ∃ a, Refines m c a) ⟨_, refines_initial initial⟩
    fun ⟨_, rel⟩ ⟨leading, served, clean⟩ stepped => refines_step rel leading served clean stepped

section Progress

/-- The snapshot stays and the commit index does not fall. -/
structure Progress (core core' : Core) : Prop where
  snapshot : core'.snapshot = core.snapshot
  commit : core.commitIndex ≤ core'.commitIndex

/-- Moreover nothing is handed out and the log only grows. -/
structure Grows (core core' : Core) : Prop extends Progress core core' where
  entries : core.entries <+: core'.entries
  lastApplied : core'.lastApplied = core.lastApplied

omit [Bincode] in
theorem Progress.trans {core core' core'' : Core} (first : Progress core core')
    (second : Progress core' core'') : Progress core core'' :=
  ⟨second.snapshot.trans first.snapshot, first.commit.trans second.commit⟩

omit [Bincode] in
theorem Progress.take (fuel : Nat) (core : Core) : Progress core (takeLoop fuel core).2 := by
  induction fuel generalizing core with
  | zero => exact ⟨rfl, le_rfl⟩
  | succ fuel ih =>
    unfold takeLoop
    split
    · have moved := ih { core with lastApplied := core.lastApplied + 1 }
      exact ⟨moved.snapshot, moved.commit⟩
    · exact ⟨rfl, le_rfl⟩

namespace Grows
variable {core core' core'' : Core}

omit [Bincode] in
theorem refl (core : Core) : Grows core core := ⟨⟨rfl, le_rfl⟩, List.prefix_rfl, rfl⟩

omit [Bincode] in
theorem trans (first : Grows core core') (second : Grows core' core'') : Grows core core'' :=
  ⟨first.toProgress.trans second.toProgress, first.entries.trans second.entries,
    second.lastApplied.trans first.lastApplied⟩

omit [Bincode] in
theorem advance (core : Core) : Grows core core.advanceCommitIndex := by
  rcases advanceCommitIndex_cases core with same | ⟨k, _, above, _, same⟩
  · rw [same]
    exact .refl core
  · rw [same]
    exact ⟨⟨rfl, above.le⟩, List.prefix_rfl, rfl⟩

theorem appendAsLeader (command : Command) : Fallible.Keeps Grows (appendAsLeader command) := by
  have onLog {α : Type} (m : Fallible Stop FlatLog α) : Fallible.Keeps Grows (onLog m) :=
    fun core => ⟨⟨rfl, le_rfl⟩, List.prefix_rfl, rfl⟩
  refine .bind Grows.trans ?_ fun _ => .bind Grows.trans (onLog _) fun _ =>
    .bind Grows.trans Grows.advance fun _ => .pure Grows.refl _
  refine .bind Grows.trans (.get Grows.refl) fun core => ?_
  split_ifs
  · exact fun core => .refl core
  · refine .bind Grows.trans (.lift Grows.refl _) fun _ => .bind Grows.trans (onLog _) fun _ => ?_
    exact .bind Grows.trans (fun core => ⟨⟨rfl, le_rfl⟩, List.prefix_append _ _, rfl⟩)
      fun _ => .pure Grows.refl _

omit [Bincode] in
theorem onReply (peer lastSent : Nat) (reply : AppendEntriesReply) (core : Core) :
    Grows core (core.onAppendEntriesReply peer lastSent reply) := by
  obtain ⟨nextIndex, matchIndex, same⟩ := onAppendEntriesReply_cases peer lastSent reply core
  have moved : Grows core { core with nextIndex, matchIndex } :=
    ⟨⟨rfl, le_rfl⟩, List.prefix_rfl, rfl⟩
  rcases same with same | same
  · rw [same]
    exact moved
  · rw [same]
    exact moved.trans (advance _)

end Grows

omit [Bincode] in
theorem SameLedger.grows {core core' : Core} (same : SameLedger core core') : Grows core core' :=
  ⟨⟨same.snapshot, same.commitIndex.ge⟩, same.entries ▸ List.prefix_rfl, same.lastApplied⟩

theorem timeout_grows (rel : Refines m c a) (member : n ∈ m.members) (clock : Clock) :
    Grows (c.core n) (timeoutEffect clock (c.server n)).server.core := by
  simp only [timeoutEffect, (rel.elections.node n member).running.becomeCandidate]
  exact ⟨⟨rfl, le_rfl⟩, List.prefix_rfl, rfl⟩

theorem requestVote_grows (rel : Refines m c a) {call : VoteCall}
    (member : call.dst ∈ m.members) (clock : Clock) : Grows (c.core call.dst)
      (requestVoteEffect call clock (c.server call.dst)).server.core := by
  have ledger := observe_ledger (c.core call.dst) call.args.term none
  simp only [requestVoteEffect,
    (rel.elections.node call.dst member).running.handleRequestVote]
  split_ifs
  · exact .refl _
  · exact SameLedger.grows
      ⟨ledger.log, ledger.entries, ledger.snapshot, ledger.commitIndex, ledger.lastApplied⟩
  · exact ledger.grows

theorem voteAnswer_grows (rel : Refines m c a) {answer : VoteAnswer} {campaign : Campaign}
    (member : answer.candidate ∈ m.members) : Grows (c.core answer.candidate)
      (voteAnswerEffect answer campaign (c.server answer.candidate)).server.core := by
  have running := (rel.elections.node answer.candidate member).running
  unfold voteAnswerEffect
  split_ifs with newer _ _ enough
  · rw [running.becomeFollower newer]
    exact (observe_ledger _ _ _).grows
  · exact .refl _
  · have moved := Grows.appendAsLeader .noop (c.core answer.candidate).becomeLeader
    exact ⟨⟨moved.snapshot, moved.commit⟩, moved.entries, moved.lastApplied⟩
  all_goals exact .refl _

theorem propose_grows (command : Command) :
    Grows (c.core n) (proposeEffect command (c.server n)).server.core := by
  have moved := Grows.appendAsLeader command (c.core n)
  unfold proposeEffect
  split <;> rename_i ran <;> rw [ran] at moved <;> exact moved

theorem appendAnswer_grows (rel : Refines m c a) {answer : AppendAnswer}
    (member : answer.leader ∈ m.members) : Grows (c.core answer.leader)
      (appendAnswerEffect answer (c.server answer.leader)).server.core := by
  have running := (rel.elections.node answer.leader member).running
  unfold appendAnswerEffect
  split_ifs with newer
  · rw [running.becomeFollower newer]
    exact (observe_ledger _ _ _).grows
  · exact .refl _
  · exact .onReply _ _ _ _

theorem appendEntries_progress (rel : Refines m c a) {call : AppendCall}
    (member : call.dst ∈ m.members) (sent : call ∈ c.appendCalls) (clock : Clock) :
    Progress (c.core call.dst) (appendEntriesEffect call clock (c.server call.dst)).server.core := by
  obtain ⟨core, reply, ended, outcome⟩ := appendEntries_cases rel member sent clock
  rw [ended]
  rcases outcome with ⟨rfl, _⟩ | ⟨ledger, _⟩ | stored
  · exact ⟨rfl, le_rfl⟩
  · exact ledger.grows.toProgress
  · exact ⟨stored.snapshot, stored.raised⟩

/-- Only a restart or a snapshot loses ground. -/
theorem effect_progress (rel : Refines m c a) (member : action.node ∈ m.members)
    (clean : CleanCrash action) (plain : NoSnapshot action)
    (acted : effect m c action = some e) (running : ∀ n clock, action ≠ .crash n clock) :
    Progress (c.core action.node) e.server.core := by
  cases effect_acts acted with
  | timeout n clock => exact (timeout_grows rel member clock).toProgress
  | requestVote clock => exact (requestVote_grows rel member clock).toProgress
  | voteAnswer => exact (voteAnswer_grows rel member).toProgress
  | propose n command => exact (propose_grows command).toProgress
  | appendEntries clock sent => exact appendEntries_progress rel member sent clock
  | appendAnswer => exact (appendAnswer_grows rel member).toProgress
  | take n => exact .take _ _
  | build | publish | acknowledge | deadlineExceeded => exact ⟨rfl, le_rfl⟩
  | compact | crashUncompacted => exact plain.elim
  | @crash n clock => exact absurd rfl (running n clock)
  | interrupt => exact clean.elim

end Progress
end WalKv
