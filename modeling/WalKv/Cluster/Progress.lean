import WalKv.Cluster.Retention
import WalKv.Raft.Convergence

/-! A stable leader makes progress. From any state that a run without snapshots reaches, once a
leader keeps exchanging requests and replies with a quorum of nodes that know no newer term,
everything in its log is committed, and these nodes learn of it. -/
namespace WalKv
open RaftCore Transition

/-- A leader has a next index for every peer. -/
def Tracked (core : Core) : Prop :=
  core.role = .leader → ∀ p ∈ core.peers, ∃ i, core.nextIndex p = some i

theorem Tracked.keep {core core' : Core} (tracked : Tracked core) (peers : core'.peers = core.peers)
    (next : core'.nextIndex = core.nextIndex) (role : core'.role = .leader → core.role = .leader) :
    Tracked core' := by
  intro leads p listed
  rw [next]
  exact tracked (role leads) p (peers ▸ listed)

theorem Tracked.of_role {core : Core} (role : core.role ≠ .leader) : Tracked core :=
  fun leads => absurd leads role

theorem tracked_becomeLeader (core : Core) : Tracked core.becomeLeader := by
  intro _ p listed
  exact ⟨core.lastLogIndex + 1, if_pos listed⟩

theorem Tracked.observe {core : Core} (tracked : Tracked core) (term : Nat) (leader : Option Nat) :
    Tracked (core.observe term leader) := by
  unfold RaftCore.observe
  split_ifs
  · exact .of_role (by simp)
  · exact tracked

theorem Tracked.onReply {core : Core} (tracked : Tracked core) (peer lastSent : Nat)
    (reply : AppendEntriesReply) : Tracked (core.onAppendEntriesReply peer lastSent reply) := by
  have update (i : Nat) {core' : Core} (peers : core'.peers = core.peers)
      (next : core'.nextIndex = Function.update core.nextIndex peer (some i))
      (role : core'.role = core.role) : Tracked core' := by
    intro leads p listed
    rw [next]
    by_cases here : p = peer
    · exact ⟨i, by simp [here]⟩
    · simpa [here] using tracked (role ▸ leads) p (peers ▸ listed)
  by_cases leads : core.role = .leader
  · rcases success : reply.success with _ | _
    · obtain ⟨i, _, _, same⟩ : ∃ i, _ ∧ _ ∧ core.onAppendEntriesReply peer lastSent reply = _ :=
        onAppendEntriesReply_backs leads success
      rw [same]
      exact update i rfl rfl rfl
    · rw [onAppendEntriesReply_taken leads success]
      exact update _ rfl rfl rfl
  · rw [onAppendEntriesReply, if_pos leads]
    exact tracked

section Runs
variable [Bincode] {m : Membership} {c c' : Cluster} {a : Spec} {n : Nat} {e : Effect}
  {action : Action}

theorem Tracked.appendAsLeader {core : Core} {l : List LogEntry} (tracked : Tracked core)
    (sound : core.Sound l) (command : Command) : Tracked (appendAsLeader command core).2 := by
  by_cases leading : core.role = .leader
  · rw [appendAsLeader_run sound leading command rfl]
    rcases Bincode.serialize (⟨core.hard.currentTerm, l.length + 1, command⟩ : LogEntry) with
      error | bytes
    · exact tracked
    · simp only
      rw [advanceCommitIndex_eq]
      exact tracked.keep rfl rfl id
  · rw [appendAsLeader_refused leading]
    exact tracked

theorem effect_tracked (rel : Refines m c a) (member : action.node ∈ m.members)
    (clean : CleanCrash action) (plain : NoSnapshot action)
    (tracked : Tracked (c.core action.node)) (acted : effect m c action = some e) :
    Tracked e.server.core := by
  have running := (rel.elections.node action.node member).running
  have stands := rel.node action.node member
  cases effect_acts acted with
  | timeout n clock =>
    have running : (c.server n).core.Running := running
    simp only [timeoutEffect, running.becomeCandidate]
    exact .of_role (by simp [campaigning])
  | @requestVote call clock =>
    have running : (c.server call.dst).core.Running := running
    simp only [requestVoteEffect, running.handleRequestVote]
    split_ifs
    · exact tracked
    · exact (tracked.observe _ none).keep rfl rfl id
    · exact tracked.observe _ none
  | @voteAnswer answer campaign =>
    have running : (c.server answer.candidate).core.Running := running
    simp only [voteAnswerEffect]
    split_ifs with newer
    · rw [running.becomeFollower newer]
      exact tracked.observe _ none
    · exact tracked
    · have sound : (c.core answer.candidate).becomeLeader.Sound (a.log answer.candidate) :=
        stands.sound.congr rfl rfl rfl
      exact (tracked_becomeLeader _).appendAsLeader sound .noop
    · exact tracked
    · exact tracked
  | propose n command =>
    have kept : Tracked (appendAsLeader command (c.server n).core).2 :=
      tracked.appendAsLeader stands.sound command
    unfold proposeEffect
    split <;> rename_i ran <;> rw [ran] at kept <;> exact kept
  | build | publish | acknowledge | deadlineExceeded => exact tracked
  | appendEntries clock sent =>
    obtain ⟨core, reply, ended, outcome⟩ := appendEntries_cases rel member sent clock
    rw [ended]
    rcases outcome with ⟨rfl, _⟩ | ⟨_, _, role, _⟩ | stored
    · exact tracked
    · exact .of_role (by simp [role])
    · exact .of_role (by simp [stored.role])
  | @appendAnswer answer =>
    have running : (c.server answer.leader).core.Running := running
    unfold appendAnswerEffect
    split_ifs with newer
    · rw [running.becomeFollower newer]
      exact tracked.observe _ none
    · exact tracked
    · exact tracked.onReply _ _ _
  | take n =>
    have taken : (c.server n).core.takeCommitted = _ := rel.takeCommitted member
    simp only [takeEffect, taken]
    exact tracked.keep rfl rfl id
  | compact | crashUncompacted => exact plain.elim
  | crash restarted =>
    obtain ⟨core, restored, rfl⟩ := restart_ok restarted
    obtain ⟨records, entries, _, _, _, rfl⟩ := restore_ok restored
    exact .of_role (by simp [Server.fresh, armed, assemble])
  | interrupt => exact clean.elim

theorem plain_tracked [LawfulBincode] (run : Reachable m Plain c) :
    ∃ a, Refines m c a ∧ Uncompacted m c ∧ ∀ n ∈ m.members, Tracked (c.core n) := by
  obtain ⟨start, initial, run⟩ := run
  refine run.invariant (P := fun c => ∃ a, Refines m c a ∧ Uncompacted m c ∧
    ∀ n ∈ m.members, Tracked (c.core n)) ⟨_, refines_initial initial, uncompacted_initial initial, ?_⟩ ?_
  · intro n member
    obtain ⟨clock, core, restored, server⟩ := initial.server n member
    obtain ⟨records, entries, _, _, _, rfl⟩ := restore_ok restored
    rw [Cluster.core, server]
    exact .of_role (by simp [Server.fresh, armed, assemble])
  · rintro before after action ⟨a, rel, flat, tracked⟩ plain stepped
    obtain ⟨a', rel', flat'⟩ := plain_step rel flat plain stepped
    refine ⟨a', rel', flat', ?_⟩
    obtain ⟨member, e, acted, rfl⟩ := step_ok stepped
    intro v voter
    by_cases acting : v = action.node
    · subst acting
      rw [before.apply_core_self]
      exact effect_tracked rel member plain.2.1 plain.2.2 (tracked _ voter) acted
    · rw [before.apply_core_other e acting]
      exact tracked v voter

end Runs

/-- Node `n` of the cluster with the nodes it broadcasts to, between two broadcasts. -/
def Group.of (c : Cluster) (n : Nat) : Group FlatLog FlatLog :=
  ⟨c.core n, c.core, fun _ => none⟩

section Runs
variable [Bincode] {m : Membership} {c : Cluster} {a : Spec} {n : Nat}

theorem Refines.tracks (rel : Refines m c a) (flat : Uncompacted m c) (member : n ∈ m.members)
    (leads : (c.core n).role = .leader) {p i : Nat} (listed : p ∈ (c.core n).peers)
    (current : (c.core p).hard.currentTerm ≤ (c.core n).hard.currentTerm)
    (next : (c.core n).nextIndex p = some i) :
    Group.Tracks (Group.of c n) (a.log n) p (a.log p) i := by
  have other := ((rel.elections.node n member).peer member listed).1
  have stands := rel.node n member
  have stands' := rel.node p other
  have running := (rel.elections.node p other).running
  have bounds := (stands.leads leads).next p i next
  refine ⟨?_, ⟨next, bounds.1, ?_⟩, trivial⟩
  · exact
      { leads
        holds := stands.sound.holds
        plain := flat.node n member
        bare := flat.node p other
        current
        working := ⟨⟨_, stands'.sound.grounded false⟩, running.durable, running.timed⟩
        trails := by
          refine ⟨stands'.sound.holds, ?_,
            (rel.invariant.rooted p).matching_logs (rel.invariant.rooted n)⟩
          have zero : ((Group.of c n).follower p).snapshot.lastIncludedIndex = 0 := flat.node p other
          rw [zero]
          exact List.nil_prefix }
  · have last : (Group.of c n).leader.lastLogIndex = (a.log n).length := stands.sound.holds.lastLogIndex
    show i ≤ (Group.of c n).leader.lastLogIndex + 1
    rw [last]
    exact bounds.2

theorem Refines.ledger (rel : Refines m c a) (member : n ∈ m.members)
    (leads : (c.core n).role = .leader) (peered : (c.core n).peers ≠ [])
    (own : (c.core n).termAt (c.core n).lastLogIndex = some (c.core n).hard.currentTerm) :
    Group.Ledger (c.core n) (a.log n) ∅ := by
  have stands := rel.node n member
  have node := rel.elections.node n member
  have size : (c.core n).clusterSize = (c.core n).peers.length + 1 := by
    have counted := (m.shared n member).length_eq
    rw [node.clusterSize, node.peers, ← counted]
    simp
  refine ⟨leads, stands.sound.holds, size, node.peers_nodup member, ?_, ?_, by simp, ?_⟩
  · intro p listed
    rcases known : (c.core n).matchIndex p with _ | i
    · exact Nat.zero_le _
    · rcases (stands.leads leads).acked p i known with zero | acked
      · rw [zero]
        exact Nat.zero_le _
      · have within := (rel.invariant.acked acked).2.2
        rwa [← (stands.leads leads).log] at within
  · rw [stands.sound.holds.lastLogIndex,
      stands.sound.holds.termAt stands.sound.holds.compacted le_rfl] at own
    exact Option.some.inj own
  · intro enough
    have some_peer := List.length_pos_of_ne_nil peered
    rw [quorum, size] at enough
    simp only [Finset.card_empty] at enough
    omega

theorem Refines.converging (rel : Refines m c a) (flat : Uncompacted m c)
    (tracked : Tracked (c.core n)) (member : n ∈ m.members) (leads : (c.core n).role = .leader)
    (own : (c.core n).termAt (c.core n).lastLogIndex = some (c.core n).hard.currentTerm)
    {P : Finset Nat} (some_peer : P.Nonempty) (quorate : (c.core n).quorum ≤ P.card + 1)
    (reach : ∀ p ∈ P, p ∈ (c.core n).peers ∧
      (c.core p).hard.currentTerm ≤ (c.core n).hard.currentTerm) :
    Group.Converging P (fun p => ((c.core n).nextIndex p).getD 0) (a.log n) ∅ [] (Group.of c n) := by
  have peered : (c.core n).peers ≠ [] := by
    obtain ⟨p, inside⟩ := some_peer
    exact List.ne_nil_of_mem (reach p inside).1
  refine ⟨rel.ledger member leads peered own, quorate, ?_⟩
  intro p inside
  obtain ⟨listed, current⟩ := reach p inside
  obtain ⟨i, next⟩ := tracked leads p listed
  refine ⟨listed, a.log p, i, rel.tracks flat member leads listed current next, by simp, .inr ?_⟩
  simp [next]

theorem Refines.recordable (rel : Refines m c a) (member : n ∈ m.members)
    (leads : (c.core n).role = .leader) : ∀ e ∈ a.log n, Recordable FlatLog e := by
  intro e inside
  have leading := (rel.node n member).leads leads
  rw [leading.log] at inside
  obtain ⟨bytes, encoded⟩ := (rel.storable leading.led).encodable e inside
  exact ⟨bytes, encoded, trivial⟩

end Runs

/-- A request, what the peer makes of it, and the reply. -/
def Group.exchange (p : Nat) : List Group.Move := [.build p, .deliver p ⟨0, 0⟩, .fold p]

end WalKv
