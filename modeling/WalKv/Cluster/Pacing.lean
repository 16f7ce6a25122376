import WalKv.Cluster.Elections
import WalKv.Cluster.Timed

/-! What actions do to election timers and to leases. Whatever arms a timer arms it for at
least the shortest wait, and nothing but the end of a round renews a lease. -/
namespace WalKv
open RaftCore

variable {m : Membership} {c : Cluster} {n now : Nat} {e : Effect}

/-- The shortest time for which node `v` arms its election timer. -/
def Membership.wait (m : Membership) (v : Nat) : Nat :=
  fromMillis (asMillis (m.config v).electionTimeout.start)

/-- How a call of node `n` at the given time moves its timer and its lease. -/
structure Paced (m : Membership) (n now : Nat) (core core' : Core) : Prop where
  timeout : core'.electionTimeout = core.electionTimeout
  deadline : core'.electionDeadline = core.electionDeadline ∨ now + m.wait n ≤ core'.electionDeadline
  lease : core'.lease = core.lease ∨ core'.lease.expiry = none

namespace Paced
variable {core core' core'' : Core} {clock : Clock}

theorem refl (core : Core) : Paced m n now core core := ⟨rfl, Or.inl rfl, Or.inl rfl⟩

theorem trans (first : Paced m n now core core') (second : Paced m n now core' core'') :
    Paced m n now core core'' where
  timeout := second.timeout.trans first.timeout
  deadline := by
    rcases second.deadline with same | later
    · exact same ▸ first.deadline
    · exact Or.inr later
  lease := by
    rcases second.lease with same | none
    · exact same ▸ first.lease
    · exact Or.inr none

theorem side (side : LogSide core core') : Paced m n now core core' := by
  rw [side]
  exact ⟨rfl, Or.inl rfl, Or.inl rfl⟩

theorem observe (core : Core) (term : Nat) (leader : Option Nat) :
    Paced m n now core (core.observe term leader) := by
  unfold RaftCore.observe
  split_ifs
  · exact ⟨rfl, Or.inl rfl, Or.inr rfl⟩
  · exact refl core

theorem recognised (core : Core) (args : AppendEntriesArgs) :
    Paced m n now core (core.recognised args) := by
  unfold RaftCore.recognised
  split_ifs
  · exact observe core _ _
  · exact ⟨rfl, Or.inl rfl, Or.inl rfl⟩

end Paced

theorem wait_le_nextDeadline {core : Core}
    (timeout : core.electionTimeout = (m.config n).electionTimeout) (clock : Clock) :
    clock.now + m.wait n ≤ core.nextDeadline clock := by
  unfold nextDeadline Membership.wait fromMillis
  rw [timeout]
  omega

theorem Paced.rearmed {core core' : Core} {clock : Clock}
    (timeout : core.electionTimeout = (m.config n).electionTimeout)
    (kept : core'.electionTimeout = core.electionTimeout)
    (deadline : core'.electionDeadline = core.nextDeadline clock)
    (lease : core'.lease = core.lease) : Paced m n clock.now core core' :=
  ⟨kept, Or.inr (deadline ▸ wait_le_nextDeadline timeout clock), Or.inl lease⟩

theorem requestVote_paced (inv : Elections m c) {call : VoteCall} (member : call.dst ∈ m.members)
    (timeout : (c.core call.dst).electionTimeout = (m.config call.dst).electionTimeout)
    (clock : Clock) : Paced m call.dst clock.now (c.core call.dst)
      (requestVoteEffect call clock (c.server call.dst)).server.core := by
  have node := inv.node call.dst member
  have seen : Paced m call.dst clock.now _ _ := .observe (c.core call.dst) call.args.term none
  simp only [requestVoteEffect, node.running.handleRequestVote]
  split_ifs
  · exact .refl _
  · exact seen.trans (.rearmed (seen.timeout.trans timeout) rfl rfl rfl)
  · exact seen

theorem appendAnswer_paced (inv : Elections m c) {answer : AppendAnswer}
    (member : answer.leader ∈ m.members) : Paced m answer.leader now (c.core answer.leader)
      (appendAnswerEffect answer (c.server answer.leader)).server.core := by
  unfold appendAnswerEffect
  split_ifs with newer
  · rw [(inv.node answer.leader member).running.becomeFollower newer]
    exact .observe _ _ _
  · exact .refl _
  · exact .side (onAppendEntriesReply_side _ _ _ _)

section Actions
variable [Bincode]

theorem voteAnswer_paced (inv : Elections m c) {answer : VoteAnswer}
    (member : answer.candidate ∈ m.members) (campaign : Campaign) :
    Paced m answer.candidate now (c.core answer.candidate)
      (voteAnswerEffect answer campaign (c.server answer.candidate)).server.core := by
  unfold voteAnswerEffect
  split_ifs with newer
  · rw [(inv.node answer.candidate member).running.becomeFollower newer]
    exact .observe _ _ _
  · exact .refl _
  · have leading : Paced m answer.candidate now (c.core answer.candidate)
        (c.core answer.candidate).becomeLeader := ⟨rfl, Or.inl rfl, Or.inl rfl⟩
    exact leading.trans (.side (appendAsLeader_side .noop _))
  · exact .refl _
  · exact .refl _

theorem propose_paced (command : Command) : Paced m n now (c.core n)
    (proposeEffect command (c.server n)).server.core := by
  have side := appendAsLeader_side command (c.core n)
  unfold proposeEffect
  split
  all_goals
    rename_i ran
    rw [ran] at side
    exact .side side

theorem appendEntries_paced (inv : Elections m c) {call : AppendCall}
    (member : call.dst ∈ m.members)
    (timeout : (c.core call.dst).electionTimeout = (m.config call.dst).electionTimeout)
    (clock : Clock) : Paced m call.dst clock.now (c.core call.dst)
      (appendEntriesEffect call clock (c.server call.dst)).server.core := by
  have node := inv.node call.dst member
  have seen : Paced m call.dst clock.now _ _ := .recognised (c.core call.dst) call.args
  have armed : Paced m call.dst clock.now ((c.core call.dst).recognised call.args)
      (((c.core call.dst).recognised call.args).armed clock) :=
    .rearmed (seen.timeout.trans timeout) rfl rfl rfl
  have stored := matchAndStore_side call.args (((c.core call.dst).recognised call.args).armed clock)
  simp only [appendEntriesEffect, node.running.handleAppendEntries]
  split_ifs with stale
  · exact .refl _
  · rcases ran : matchAndStore call.args (((c.core call.dst).recognised call.args).armed clock)
      with ⟨stop | reply, core⟩ <;> rw [ran] at stored
    all_goals exact (seen.trans armed).trans (.side stored)

theorem restart_paced {clock : Clock} {file : HardFile} {snapshot : SnapshotMeta} {log : FlatLog}
    (timeout : (c.core n).electionTimeout = (m.config n).electionTimeout)
    (restarted : restart m clock n file snapshot log = some e) :
    Paced m n clock.now (c.core n) e.server.core := by
  obtain ⟨core, restored, rfl⟩ := restart_ok restarted
  obtain ⟨records, entries, _, _, _, rfl⟩ := restore_ok restored
  exact ⟨timeout.symm, Or.inr (wait_le_nextDeadline rfl clock), Or.inr rfl⟩

/-- Every action leaves the timer alone or arms it, and leaves the lease alone or drops it. -/
theorem effect_paced (inv : Elections m c) {action : Action} (member : action.node ∈ m.members)
    (timeout : (c.core action.node).electionTimeout = (m.config action.node).electionTimeout)
    (stamped : Timed.stamped now action = true) (acted : effect m c action = some e) :
    Paced m action.node now (c.core action.node) e.server.core := by
  cases effect_acts acted with
  | timeout n clock =>
    cases of_decide_eq_true stamped
    simp only [timeoutEffect, (inv.node n member).running.becomeCandidate]
    exact .rearmed timeout rfl rfl rfl
  | requestVote clock =>
    cases of_decide_eq_true stamped
    exact requestVote_paced inv member timeout clock
  | voteAnswer => exact voteAnswer_paced inv member _
  | propose n command => exact propose_paced command
  | appendEntries clock =>
    cases of_decide_eq_true stamped
    exact appendEntries_paced inv member timeout clock
  | appendAnswer => exact appendAnswer_paced inv member
  | take n => exact .side (takeLoop_side _ _)
  | build | publish | acknowledge | deadlineExceeded => exact .refl _
  | compact => exact .side (compact_side _ _)
  | crash restarted =>
    cases of_decide_eq_true stamped
    exact restart_paced timeout restarted
  | crashUncompacted _ _ restarted =>
    cases of_decide_eq_true stamped
    exact restart_paced timeout restarted
  | interrupt _ restarted =>
    cases of_decide_eq_true stamped
    exact restart_paced timeout restarted

end Actions

end WalKv
