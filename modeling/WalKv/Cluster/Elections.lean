import WalKv.Cluster.Boot
import WalKv.Raft.Ballot
import WalKv.Raft.Bincode
import WalKv.Consensus.Majority

/-! Every term has at most one leader, whatever the network loses or repeats and
wherever nodes crash. A recorded vote binds its voter for the term, on disk as
well as in memory, and a winner has counted the recorded votes of a majority. -/
namespace WalKv
open RaftCore

abbrev Cluster.core (c : Cluster) (n : Nat) : Core := (c.server n).core

variable {m : Membership} {c : Cluster} {n : Nat} {e : Effect}

@[simp] theorem Cluster.apply_core_self (c : Cluster) (n : Nat) (e : Effect) :
    (c.apply n e).core n = e.server.core := by
  simp [Cluster.core, Cluster.apply]

theorem Cluster.apply_core_other (c : Cluster) (e : Effect) {v : Nat} (other : v ≠ n) :
    (c.apply n e).core v = c.core v := by
  simp [Cluster.core, Cluster.apply, other]

theorem Membership.size (m : Membership) (member : n ∈ m.members) :
    (m.config n).clusterSize = m.members.length := by
  simpa [Config.clusterSize, Config.peerIds] using (m.shared n member).length_eq

/-- A core that runs as node `n` of the membership. -/
structure Member (m : Membership) (n : Nat) (core : Core) : Prop where
  id : core.id = n
  peers : core.peers = (m.config n).peerIds
  clusterSize : core.clusterSize = m.members.length
  running : core.Running

theorem Member.congr {core core' : Core} (node : Member m n core)
    (same : core'.ballot = core.ballot) : Member m n core' := by
  have running := node.running.congr same
  simp only [ballot, Ballot.mk.injEq] at same
  obtain ⟨id, peers, size, _⟩ := same
  exact ⟨id ▸ node.id, peers ▸ node.peers, size ▸ node.clusterSize, running⟩

/-- The peers of a node are the other members. -/
theorem Member.peer {core : Core} (node : Member m n core) (member : n ∈ m.members) {p : Nat}
    (peer : p ∈ core.peers) : p ∈ m.members ∧ p ≠ n := by
  rw [node.peers] at peer
  refine ⟨(m.shared n member).mem_iff.mp (List.mem_append_left _ peer), ?_⟩
  rintro rfl
  have distinct := Config.validate_nodup (m.valid p member)
  rw [m.configured p member] at distinct
  exact (List.nodup_append.mp distinct).2.2 p peer p (by simp) rfl

theorem Member.peers_nodup {core : Core} (node : Member m n core) (member : n ∈ m.members) :
    core.peers.Nodup := by
  rw [node.peers]
  exact (List.nodup_append.mp (Config.validate_nodup (m.valid n member))).1

/-- The votes that a campaign has counted, by the nodes that gave them. -/
structure Counted (m : Membership) (trace : List Event) (n : Nat) (campaign : Campaign)
    (voters : Finset Nat) : Prop where
  size : voters.card = campaign.votes
  votes : ∀ v ∈ voters, v ∈ m.members ∧ .voted v campaign.term n ∈ trace
  waiting : ∀ p ∈ campaign.waiting, p ∈ m.members ∧ p ∉ voters
  distinct : campaign.waiting.Nodup

/-- A majority of the members voted for `n` in term `u`. -/
abbrev Carried (m : Membership) (trace : List Event) (n u : Nat) : Prop :=
  Consensus.Majority m.members (fun v => .voted v u n ∈ trace)

theorem Counted.mono {trace : List Event} {campaign : Campaign} {voters : Finset Nat}
    (counted : Counted m trace n campaign voters) (more : List Event) :
    Counted m (trace ++ more) n campaign voters :=
  { counted with votes := fun v given =>
      ⟨(counted.votes v given).1, List.mem_append_left _ (counted.votes v given).2⟩ }

theorem Carried.mono {trace : List Event} {u : Nat} (carried : Carried m trace n u)
    (more : List Event) : Carried m (trace ++ more) n u :=
  Consensus.Majority.mono carried fun _ _ voted => List.mem_append_left _ voted

/-- Hearing from a peer moves it from those waited for to those counted, if it
gave its vote. -/
theorem Counted.heard {trace : List Event} {campaign : Campaign} {voters : Finset Nat} {p : Nat}
    (counted : Counted m trace n campaign voters) :
    Counted m trace n (campaign.heard p 0) voters where
  size := counted.size
  votes := counted.votes
  waiting q waits := counted.waiting q (List.mem_of_mem_erase waits)
  distinct := counted.distinct.erase p

theorem Counted.granted {trace : List Event} {campaign : Campaign} {voters : Finset Nat} {p : Nat}
    (counted : Counted m trace n campaign voters) (waits : p ∈ campaign.waiting)
    (voted : .voted p campaign.term n ∈ trace) :
    Counted m trace n (campaign.heard p 1) (insert p voters) where
  size := by
    rw [Finset.card_insert_of_notMem (counted.waiting p waits).2, counted.size]
    rfl
  votes v given := by
    rcases Finset.mem_insert.mp given with rfl | given
    · exact ⟨(counted.waiting v waits).1, voted⟩
    · exact counted.votes v given
  waiting q waits' := by
    obtain ⟨other, old⟩ := (counted.distinct.mem_erase_iff).mp waits'
    refine ⟨(counted.waiting q old).1, ?_⟩
    simp [other, (counted.waiting q old).2]
  distinct := counted.distinct.erase p

structure Elections (m : Membership) (c : Cluster) : Prop where
  node : ∀ n ∈ m.members, Member m n (c.core n)
  /-- A vote binds its voter, and its candidate has reached the term. -/
  recorded : ∀ {v u x}, .voted v u x ∈ c.trace → v ∈ m.members ∧ x ∈ m.members ∧
    (u < (c.core v).hard.currentTerm ∨
      u = (c.core v).hard.currentTerm ∧ (c.core v).hard.votedFor = some x) ∧
    u ≤ (c.core x).hard.currentTerm
  once : ∀ {v u x y}, .voted v u x ∈ c.trace → .voted v u y ∈ c.trace → x = y
  asked : ∀ call ∈ c.voteCalls, call.src ∈ m.members ∧ call.dst ∈ m.members ∧
    call.args.candidateId = call.src ∧ call.args.term ≤ (c.core call.src).hard.currentTerm
  answered : ∀ answer ∈ c.voteAnswers, answer.reply.voteGranted = true →
    .voted answer.voter answer.term answer.candidate ∈ c.trace
  counted : ∀ n ∈ m.members, ∀ campaign, (c.server n).campaign = some campaign →
    ∃ voters, Counted m c.trace n campaign voters
  won : ∀ {core}, .elected core ∈ c.trace → core.id ∈ m.members ∧
    Carried m c.trace core.id core.hard.currentTerm
  /-- A winner does not campaign in its term again. -/
  past : ∀ {core}, .elected core ∈ c.trace →
    core.hard.currentTerm < (c.core core.id).hard.currentTerm ∨
      core.hard.currentTerm = (c.core core.id).hard.currentTerm ∧
        (c.core core.id).role ≠ .candidate
  leads : ∀ n ∈ m.members, (c.core n).role = .leader → ∃ core, .elected core ∈ c.trace ∧
    core.id = n ∧ core.hard.currentTerm = (c.core n).hard.currentTerm

theorem Elections.unique (inv : Elections m c) {a b : Core} (first : .elected a ∈ c.trace)
    (second : .elected b ∈ c.trace) (same : a.hard.currentTerm = b.hard.currentTerm) :
    a.id = b.id := by
  obtain ⟨v, _, votedA, votedB⟩ := (inv.won first).2.meet (inv.won second).2
  rw [← same] at votedB
  exact inv.once votedA votedB

/-- What an action of node `n` has to respect for elections to stay safe. -/
structure VoteRules (m : Membership) (c : Cluster) (n : Nat) (e : Effect) : Prop where
  node : Member m n e.server.core
  grown : (c.core n).hard.Le e.server.core.hard
  voted : ∀ {v u x}, .voted v u x ∈ e.events → v = n ∧ x ∈ m.members ∧
    u = e.server.core.hard.currentTerm ∧ e.server.core.hard.votedFor = some x ∧
    (x ≠ n → u ≤ (c.core x).hard.currentTerm)
  asked : ∀ call ∈ e.voteCalls, call.src = n ∧ call.dst ∈ m.members ∧
    call.args.candidateId = n ∧ call.args.term ≤ e.server.core.hard.currentTerm
  answered : ∀ answer ∈ e.voteAnswers, answer.reply.voteGranted = true →
    .voted answer.voter answer.term answer.candidate ∈ e.events
  counted : ∀ campaign, e.server.campaign = some campaign →
    ∃ voters, Counted m (c.trace ++ e.events) n campaign voters
  won : ∀ {core}, .elected core ∈ e.events → core.id = n ∧
    core.hard.currentTerm = e.server.core.hard.currentTerm ∧
    e.server.core.role ≠ .candidate ∧
    Carried m (c.trace ++ e.events) n core.hard.currentTerm
  leads : e.server.core.role = .leader → (∃ core, .elected core ∈ e.events) ∨
    (c.core n).role = .leader ∧ (c.core n).hard.currentTerm = e.server.core.hard.currentTerm
  campaigns : e.server.core.role = .candidate →
    (c.core n).hard.currentTerm < e.server.core.hard.currentTerm ∨ (c.core n).role = .candidate

namespace Elections

theorem node_act (inv : Elections m c) (rules : VoteRules m c n e) :
    ∀ v ∈ m.members, Member m v ((c.apply n e).core v) := by
  intro v member
  by_cases acting : v = n
  · subst acting
    simpa using rules.node
  · simpa [Cluster.apply_core_other, acting] using inv.node v member

theorem term_act (rules : VoteRules m c n e) (v : Nat) :
    (c.core v).hard.Le ((c.apply n e).core v).hard := by
  by_cases acting : v = n
  · subst acting
    simpa using rules.grown
  · simpa [Cluster.apply_core_other, acting] using HardState.Le.refl _

theorem recorded_act (inv : Elections m c) (member : n ∈ m.members) (rules : VoteRules m c n e)
    {v u x : Nat} (vote : .voted v u x ∈ (c.apply n e).trace) :
    v ∈ m.members ∧ x ∈ m.members ∧
      (u < ((c.apply n e).core v).hard.currentTerm ∨
        u = ((c.apply n e).core v).hard.currentTerm ∧
          ((c.apply n e).core v).hard.votedFor = some x) ∧
      u ≤ ((c.apply n e).core x).hard.currentTerm := by
  rcases List.mem_append.mp vote with old | new
  · obtain ⟨voter, candidate, binds, reached⟩ := inv.recorded old
    exact ⟨voter, candidate, (term_act rules v).vote binds,
      reached.trans (term_act rules x).term⟩
  · obtain ⟨rfl, candidate, now, given, reached⟩ := rules.voted new
    refine ⟨member, candidate, ?_, ?_⟩
    · simp [now, given]
    · by_cases own : x = v
      · subst own
        simp [now]
      · exact (reached own).trans (term_act rules x).term

/-- A vote given now does not contradict one given before. -/
theorem fresh_act (inv : Elections m c) (rules : VoteRules m c n e) {v u x y : Nat}
    (old : .voted v u x ∈ c.trace) (new : .voted v u y ∈ e.events) : x = y := by
  obtain ⟨rfl, _, now, given, _⟩ := rules.voted new
  obtain ⟨_, _, binds, _⟩ := inv.recorded old
  rcases rules.grown.vote binds with earlier | ⟨_, kept⟩
  · omega
  · exact Option.some.inj (kept.symm.trans given)

theorem once_act (inv : Elections m c) (rules : VoteRules m c n e) {v u x y : Nat}
    (first : .voted v u x ∈ (c.apply n e).trace) (second : .voted v u y ∈ (c.apply n e).trace) :
    x = y := by
  rcases List.mem_append.mp first with old | new <;>
    rcases List.mem_append.mp second with old' | new'
  · exact inv.once old old'
  · exact inv.fresh_act rules old new'
  · exact (inv.fresh_act rules old' new).symm
  · have given := (rules.voted new).2.2.2.1
    exact Option.some.inj (given.symm.trans (rules.voted new').2.2.2.1)

theorem past_act (inv : Elections m c) (rules : VoteRules m c n e) {core : Core}
    (elected : .elected core ∈ (c.apply n e).trace) :
    core.hard.currentTerm < ((c.apply n e).core core.id).hard.currentTerm ∨
      core.hard.currentTerm = ((c.apply n e).core core.id).hard.currentTerm ∧
        ((c.apply n e).core core.id).role ≠ .candidate := by
  rcases List.mem_append.mp elected with old | new
  · by_cases acting : core.id = n
    · rw [acting, c.apply_core_self]
      have before := inv.past old
      have raised := rules.grown.term
      rw [acting] at before
      rcases Nat.lt_or_ge core.hard.currentTerm e.server.core.hard.currentTerm with later | here
      · exact Or.inl later
      · refine Or.inr ⟨by omega, fun candidate => ?_⟩
        rcases before with earlier | ⟨_, role⟩
        · omega
        · rcases rules.campaigns candidate with newer | same
          · omega
          · exact role same
    · simpa [Cluster.apply_core_other, acting] using inv.past old
  · obtain ⟨acting, now, role, _⟩ := rules.won new
    rw [acting, c.apply_core_self]
    exact Or.inr ⟨now, role⟩

theorem leads_act (inv : Elections m c) (rules : VoteRules m c n e) {v : Nat}
    (member : v ∈ m.members) (role : ((c.apply n e).core v).role = .leader) :
    ∃ core, .elected core ∈ (c.apply n e).trace ∧ core.id = v ∧
      core.hard.currentTerm = ((c.apply n e).core v).hard.currentTerm := by
  by_cases acting : v = n
  · subst acting
    simp only [c.apply_core_self] at role ⊢
    rcases rules.leads role with ⟨core, new⟩ | ⟨role, same⟩
    · obtain ⟨id, now, _⟩ := rules.won new
      exact ⟨core, List.mem_append_right _ new, id, now⟩
    · obtain ⟨core, old, id, now⟩ := inv.leads v member role
      exact ⟨core, List.mem_append_left _ old, id, now.trans same⟩
  · rw [c.apply_core_other e acting] at role ⊢
    obtain ⟨core, old, id, now⟩ := inv.leads v member role
    exact ⟨core, List.mem_append_left _ old, id, now⟩

theorem act (inv : Elections m c) (member : n ∈ m.members) (rules : VoteRules m c n e) :
    Elections m (c.apply n e) where
  node := inv.node_act rules
  recorded := inv.recorded_act member rules
  once := inv.once_act rules
  asked call sent := by
    rcases List.mem_append.mp sent with old | new
    · obtain ⟨src, dst, own, reached⟩ := inv.asked call old
      exact ⟨src, dst, own, reached.trans (term_act rules _).term⟩
    · obtain ⟨src, dst, own, reached⟩ := rules.asked call new
      exact ⟨src ▸ member, dst, own.trans src.symm, by simpa [src] using reached⟩
  answered answer sent granted := by
    rcases List.mem_append.mp sent with old | new
    · exact List.mem_append_left _ (inv.answered answer old granted)
    · exact List.mem_append_right _ (rules.answered answer new granted)
  counted v voter campaign running := by
    by_cases acting : v = n
    · subst acting
      exact rules.counted campaign (by simpa [Cluster.apply] using running)
    · have running : (c.server v).campaign = some campaign := by
        simpa [Cluster.apply, acting] using running
      obtain ⟨voters, counted⟩ := inv.counted v voter campaign running
      exact ⟨voters, counted.mono _⟩
  won elected := by
    rcases List.mem_append.mp elected with old | new
    · exact ⟨(inv.won old).1, Carried.mono (inv.won old).2 _⟩
    · obtain ⟨acting, _, _, carried⟩ := rules.won new
      exact ⟨acting ▸ member, acting ▸ carried⟩
  past := inv.past_act rules
  leads v := inv.leads_act rules

end Elections

/-- No vote and no election among the events. -/
def Uncontested (events : List Event) : Prop :=
  ∀ event ∈ events, (∀ v u x, event ≠ .voted v u x) ∧ ∀ core, event ≠ .elected core

theorem commitEvent_uncontested (before after : Core) : Uncontested (commitEvent before after) := by
  unfold commitEvent Uncontested
  split_ifs <;> simp

theorem appliedEvents_uncontested (n index : Nat) (batch : List LogEntry) :
    Uncontested (appliedEvents n index batch) := by
  induction batch generalizing index with
  | nil => simp [appliedEvents, Uncontested]
  | cons entry rest ih =>
    intro event member
    rcases List.mem_cons.mp member with rfl | later
    · simp
    · exact ih (index + 1) event later

/-- Whether an action gives a vote. -/
def votes (c : Cluster) : Action → Bool
  | .timeout .. => true
  | .requestVote call clock =>
    match (handleRequestVote clock call.args (c.core call.dst)).1 with
    | .ok reply => reply.voteGranted
    | .error _ => false
  | _ => false

/-- Only a campaign or a granted request gives a vote, and only a candidate wins. -/
def Contested (c : Cluster) (action : Action) (events : List Event) : Prop :=
  (∀ v u x, .voted v u x ∈ events → votes c action = true) ∧
    ∀ core, .elected core ∈ events → (c.core action.node).role = .candidate

theorem Uncontested.contested {action : Action} {events : List Event} (quiet : Uncontested events) :
    Contested c action events :=
  ⟨fun v u x vote => absurd rfl ((quiet _ vote).1 v u x),
    fun core won => absurd rfl ((quiet _ won).2 core)⟩

/-- An action that takes no part in an election; it may end a campaign or a
leadership. -/
theorem VoteRules.silent (inv : Elections m c) (member : n ∈ m.members)
    (node : Member m n e.server.core) (grown : (c.core n).hard.Le e.server.core.hard)
    (role : e.server.core.role = .follower ∨ e.server.core.role = (c.core n).role ∧
      e.server.core.hard.currentTerm = (c.core n).hard.currentTerm)
    (campaign : e.server.campaign = none ∨ e.server.campaign = (c.server n).campaign)
    (calls : e.voteCalls = []) (answers : ∀ a ∈ e.voteAnswers, a.reply.voteGranted = false)
    (events : Uncontested e.events) : VoteRules m c n e where
  node := node
  grown := grown
  voted vote := absurd rfl ((events _ vote).1 _ _ _)
  asked call sent := by simp [calls] at sent
  answered answer sent granted := by simp [answers answer sent] at granted
  counted k running := by
    rcases campaign with none | same
    · simp [none] at running
    · obtain ⟨voters, counted⟩ := inv.counted n member k (same ▸ running)
      exact ⟨voters, counted.mono _⟩
  won elected := absurd rfl ((events _ elected).2 _)
  leads leader := by
    rcases role with follower | ⟨same, term⟩
    · simp [follower] at leader
    · exact Or.inr ⟨same ▸ leader, term.symm⟩
  campaigns candidate := by
    rcases role with follower | ⟨same, _⟩
    · simp [follower] at candidate
    · exact Or.inr (same ▸ candidate)

/-- The same for an action that leaves the ballot alone. -/
theorem VoteRules.unchanged (inv : Elections m c) (member : n ∈ m.members)
    (same : e.server.core.ballot = (c.core n).ballot)
    (campaign : e.server.campaign = none ∨ e.server.campaign = (c.server n).campaign)
    (calls : e.voteCalls = []) (answers : e.voteAnswers = [])
    (events : Uncontested e.events) : VoteRules m c n e := by
  have hard : e.server.core.hard = (c.core n).hard := congrArg Ballot.hard same
  refine .silent inv member ((inv.node n member).congr same) ?_ (Or.inr ⟨?_, ?_⟩) campaign calls
    (by simp [answers]) events
  · rw [hard]
    exact .refl _
  · exact congrArg Ballot.role same
  · rw [hard]

/-- A newer term stops whatever the node was doing. -/
theorem observe_grown (core : Core) (term : Nat) (leader : Option Nat) :
    core.hard.Le (core.observe term leader).hard := by
  unfold observe
  split_ifs with newer
  · exact Or.inl newer
  · exact .refl _

theorem observe_role (core : Core) (term : Nat) (leader : Option Nat) :
    (core.observe term leader).role = .follower ∨ (core.observe term leader).role = core.role ∧
      (core.observe term leader).hard.currentTerm = core.hard.currentTerm := by
  rcases observe_cases term leader core with ⟨_, follower⟩ | same
  · exact Or.inl follower
  · exact Or.inr ⟨by rw [same], by rw [same]⟩

theorem Member.observe {core : Core} (node : Member m n core) (term : Nat) (leader : Option Nat) :
    Member m n (core.observe term leader) := by
  have running := node.running.observe term leader
  unfold RaftCore.observe at running ⊢
  split_ifs at running ⊢
  · exact ⟨node.id, node.peers, node.clusterSize, running⟩
  · exact node

theorem recognised_grown (core : Core) (args : AppendEntriesArgs) :
    core.hard.Le (core.recognised args).hard := by
  unfold recognised
  split_ifs
  · exact observe_grown _ _ _
  · exact .refl _

theorem Member.recognised {core : Core} (node : Member m n core) (args : AppendEntriesArgs) :
    Member m n (core.recognised args) := by
  unfold RaftCore.recognised
  split_ifs
  · exact node.observe _ _
  · exact ⟨node.id, node.peers, node.clusterSize,
      ⟨node.running.durable, node.running.saved, node.running.timed⟩⟩

theorem Member.becomeLeader {core : Core} (node : Member m n core) :
    Member m n core.becomeLeader :=
  ⟨node.id, node.peers, node.clusterSize,
    ⟨node.running.durable, node.running.saved, node.running.timed⟩⟩

/-- The majority that a winning answer completes. -/
theorem Counted.carried {trace : List Event} {campaign : Campaign} {voters : Finset Nat}
    {voter : Nat} (counted : Counted m trace n campaign voters) (waits : voter ∈ campaign.waiting)
    (voted : .voted voter campaign.term n ∈ trace)
    (enough : m.members.length / 2 + 1 ≤ campaign.votes + 1) :
    Carried m trace n campaign.term := by
  have counted := counted.granted waits voted
  exact ⟨_, by rw [counted.size]; exact enough, counted.votes⟩

theorem timeout_rules (inv : Elections m c) (member : n ∈ m.members) (clock : Clock) :
    VoteRules m c n (timeoutEffect clock (c.server n)) := by
  have node := inv.node n member
  have id := node.id
  simp only [timeoutEffect, node.running.becomeCandidate]
  refine
    { node := ⟨node.id, node.peers, node.clusterSize, ⟨rfl, rfl, node.running.timed⟩⟩
      grown := Or.inl (Nat.lt_succ_self _)
      voted := ?_, asked := ?_, answered := ?_, counted := ?_, won := ?_
      leads := fun leader => by cases leader
      campaigns := fun _ => Or.inl (Nat.lt_succ_self _) }
  · intro v u x vote
    simp only [List.mem_singleton, Event.voted.injEq] at vote
    obtain ⟨rfl, rfl, rfl⟩ := vote
    refine ⟨id, ?_, rfl, rfl, fun other => absurd id other⟩
    simpa [campaigning, armed, saveHard, id] using member
  · intro call sent
    obtain ⟨peer, listed, rfl⟩ := List.mem_map.mp sent
    exact ⟨id, (node.peer member listed).1, id, Nat.le_refl _⟩
  · simp
  · rintro campaign ⟨⟩
    refine ⟨{n}, ⟨rfl, ?_, ?_, node.peers_nodup member⟩⟩
    · intro v own
      rw [Finset.mem_singleton.mp own]
      refine ⟨member, List.mem_append_right _ ?_⟩
      simp [campaigning, armed, saveHard, id]
    · intro p listed
      exact ⟨(node.peer member listed).1, by simpa using (node.peer member listed).2⟩
  · simp

theorem requestVote_rules (inv : Elections m c) {call : VoteCall} (sent : call ∈ c.voteCalls)
    (clock : Clock) :
    VoteRules m c call.dst (requestVoteEffect call clock (c.server call.dst)) := by
  obtain ⟨src, member, own, reached⟩ := inv.asked call sent
  have node := inv.node call.dst member
  simp only [requestVoteEffect, node.running.handleRequestVote]
  split_ifs with stale granted
  · exact .silent inv member node (.refl _) (Or.inr ⟨rfl, rfl⟩) (Or.inr rfl) rfl (by simp)
      (by simp [Uncontested])
  · have seen := node.observe call.args.term none
    have now : ((c.core call.dst).observe call.args.term none).hard.currentTerm =
        call.args.term := by
      rw [observe_term]
      exact Nat.max_eq_right (Nat.le_of_not_lt stale)
    have free : ((c.core call.dst).observe call.args.term none).hard.Le
        { ((c.core call.dst).observe call.args.term none).hard with
          votedFor := some call.args.candidateId } := by
      simp only [grants, freeToVote, Bool.and_eq_true, Bool.or_eq_true, decide_eq_true_eq]
        at granted
      exact Or.inr ⟨rfl, granted.2⟩
    have roles := observe_role (c.core call.dst) call.args.term none
    refine
      { node := ⟨seen.id, seen.peers, seen.clusterSize, ⟨rfl, rfl, seen.running.timed⟩⟩
        grown := (observe_grown _ _ _).trans free
        voted := ?_, asked := by simp, answered := ?_, counted := ?_, won := by simp
        leads := fun leader => ?_, campaigns := fun candidate => ?_ }
    · intro v u x vote
      simp only [if_true, List.mem_singleton, Event.voted.injEq] at vote
      obtain ⟨rfl, rfl, rfl⟩ := vote
      refine ⟨rfl, own ▸ src, now.symm, rfl, fun _ => ?_⟩
      rw [own]
      exact reached
    · intro answer given _
      rw [List.mem_singleton.mp given]
      simp [own]
    · intro campaign running
      obtain ⟨voters, counted⟩ := inv.counted call.dst member campaign running
      exact ⟨voters, counted.mono _⟩
    · rcases roles with follower | ⟨same, term⟩
      · exact absurd (follower.symm.trans leader) (by decide)
      · exact Or.inr ⟨same.symm.trans leader, term.symm⟩
    · rcases roles with follower | ⟨same, _⟩
      · exact absurd (follower.symm.trans candidate) (by decide)
      · exact Or.inr (same.symm.trans candidate)
  · exact .silent inv member (node.observe _ _) (observe_grown _ _ _) (observe_role _ _ _)
      (Or.inr rfl) rfl (by simp) (by simp [Uncontested])

theorem appendAnswer_rules (inv : Elections m c) {answer : AppendAnswer}
    (member : answer.leader ∈ m.members) :
    VoteRules m c answer.leader (appendAnswerEffect answer (c.server answer.leader)) := by
  have node := inv.node answer.leader member
  unfold appendAnswerEffect
  split_ifs with newer stale
  · rw [node.running.becomeFollower newer]
    exact .silent inv member (node.observe _ _) (observe_grown _ _ _) (observe_role _ _ _)
      (Or.inr rfl) rfl (by simp) (by simp [Uncontested])
  · exact .unchanged inv member rfl (Or.inr rfl) rfl rfl (by simp [Uncontested])
  · exact .unchanged inv member (onAppendEntriesReply_side _ _ _ _).ballot (Or.inr rfl) rfl rfl
      (commitEvent_uncontested _ _)

section Actions
variable [Bincode]

theorem appendAsLeader_side (command : Command) :
    Fallible.Keeps LogSide (appendAsLeader command) := by
  refine .bind LogSide.trans (appendCommand_side command) fun _ => ?_
  refine .bind LogSide.trans (fun core => (onLog_only _ core).logOnly.side) fun _ => ?_
  exact .bind LogSide.trans advanceCommitIndex_side fun _ => .pure LogSide.refl _

theorem win_rules (inv : Elections m c) (member : n ∈ m.members)
    (carried : Carried m c.trace n (c.core n).hard.currentTerm) :
    VoteRules m c n (winEffect (c.server n)) := by
  have node := inv.node n member
  have same := (appendAsLeader_side .noop (c.core n).becomeLeader).ballot
  have hard : ((appendAsLeader .noop (c.core n).becomeLeader).2).hard = (c.core n).hard :=
    congrArg Ballot.hard same
  have role : ((appendAsLeader .noop (c.core n).becomeLeader).2).role = .leader :=
    congrArg Ballot.role same
  have leading := node.becomeLeader
  refine
    { node := leading.congr same
      grown := ?_
      voted := ?_, asked := by simp [winEffect], answered := by simp [winEffect]
      counted := by simp [winEffect], won := ?_
      leads := fun _ => Or.inl ⟨(c.core n).becomeLeader, by simp [winEffect]⟩
      campaigns := fun candidate => absurd (role.symm.trans candidate) (by decide) }
  · show (c.core n).hard.Le ((appendAsLeader .noop (c.core n).becomeLeader).2).hard
    rw [hard]
    exact .refl _
  · intro v u x vote
    rcases List.mem_cons.mp vote with impossible | committed
    · cases impossible
    · exact absurd rfl ((commitEvent_uncontested _ _ _ committed).1 v u x)
  · intro core elected
    rcases List.mem_cons.mp elected with same | committed
    · cases same
      exact ⟨node.id, (congrArg HardState.currentTerm hard).symm,
        fun candidate => absurd (role.symm.trans candidate) (by decide), Carried.mono carried _⟩
    · exact absurd rfl ((commitEvent_uncontested _ _ _ committed).2 core)

theorem voteAnswer_rules (inv : Elections m c) {answer : VoteAnswer} {campaign : Campaign}
    (member : answer.candidate ∈ m.members) (sent : answer ∈ c.voteAnswers)
    (running : (c.server answer.candidate).campaign = some campaign)
    (asked : answer.term = campaign.term) (waits : answer.voter ∈ campaign.waiting) :
    VoteRules m c answer.candidate
      (voteAnswerEffect answer campaign (c.server answer.candidate)) := by
  have node := inv.node answer.candidate member
  obtain ⟨voters, counted⟩ := inv.counted answer.candidate member campaign running
  have count {k : Nat} {voters' : Finset Nat} (heard : Counted m c.trace answer.candidate
      (campaign.heard answer.voter k) voters') : VoteRules m c answer.candidate
        { server := { c.server answer.candidate with
            campaign := some (campaign.heard answer.voter k) } } := by
    have rules := VoteRules.unchanged (e := { server := c.server answer.candidate }) inv member rfl
      (Or.inr rfl) rfl rfl (by simp [Uncontested])
    exact { rules with counted := by rintro _ ⟨⟩; exact ⟨voters', heard.mono _⟩ }
  unfold voteAnswerEffect
  split_ifs with newer stale granted enough
  · rw [node.running.becomeFollower newer]
    exact .silent inv member (node.observe _ _) (observe_grown _ _ _) (observe_role _ _ _)
      (Or.inl rfl) rfl (by simp) (by simp [Uncontested])
  · exact .unchanged inv member rfl (Or.inl rfl) rfl rfl (by simp [Uncontested])
  · have voted := inv.answered answer sent granted
    rw [asked] at voted
    have now : (c.core answer.candidate).hard.currentTerm = campaign.term := by
      by_contra other
      exact stale (Or.inr other)
    rw [RaftCore.quorum, node.clusterSize] at enough
    refine win_rules inv member ?_
    rw [now]
    exact counted.carried waits voted enough
  · have voted := inv.answered answer sent granted
    rw [asked] at voted
    exact count (counted.granted waits voted)
  · exact count counted.heard

theorem propose_rules (inv : Elections m c) (member : n ∈ m.members) (command : Command) :
    VoteRules m c n (proposeEffect command (c.server n)) := by
  have same := (appendAsLeader_side command (c.core n)).ballot
  unfold proposeEffect
  split
  · rename_i entry core ran
    rw [ran] at same
    exact .unchanged inv member same (Or.inr rfl) rfl rfl (commitEvent_uncontested _ _)
  · rename_i stop core ran
    rw [ran] at same
    exact .unchanged inv member same (Or.inr rfl) rfl rfl (by simp [Uncontested])

theorem appendEntries_rules (inv : Elections m c) {call : AppendCall}
    (member : call.dst ∈ m.members) (clock : Clock) :
    VoteRules m c call.dst (appendEntriesEffect call clock (c.server call.dst)) := by
  have node := inv.node call.dst member
  have rules {core : Core} {answers : List AppendAnswer}
      (same : core.ballot = ((c.core call.dst).recognised call.args).ballot) :
      VoteRules m c call.dst
        { server := { c.server call.dst with core }, appendAnswers := answers } := by
    have hard : core.hard = ((c.core call.dst).recognised call.args).hard :=
      congrArg Ballot.hard same
    have role : core.role = ((c.core call.dst).recognised call.args).role :=
      congrArg Ballot.role same
    refine .silent inv member ((node.recognised call.args).congr same) ?_ (Or.inl ?_)
      (Or.inr rfl) rfl (by simp) (by simp [Uncontested])
    · simpa only [hard] using recognised_grown _ _
    · simpa only [role] using recognised_role _ _
  simp only [appendEntriesEffect, node.running.handleAppendEntries]
  split_ifs with stale
  · exact .unchanged inv member rfl (Or.inr rfl) rfl rfl (by simp [Uncontested])
  · have same := (matchAndStore_side call.args
      (((c.core call.dst).recognised call.args).armed clock)).ballot
    rw [SameBallot, armed_ballot] at same
    rcases ran : matchAndStore call.args (((c.core call.dst).recognised call.args).armed clock)
      with ⟨stop | reply, core⟩ <;> rw [ran] at same
    · exact rules same
    · exact rules same

/-- A node that restarts from a hard state no older than the one in memory. -/
theorem restart_rules (inv : Elections m c) (member : n ∈ m.members) {clock : Clock}
    {file : HardFile} {snapshot : SnapshotMeta} {log : FlatLog} (durable : file.outcomes = [])
    (grown : (c.core n).hard.Le file.load)
    (restarted : restart m clock n file snapshot log = some e) : VoteRules m c n e := by
  obtain ⟨core, restored, rfl⟩ := restart_ok restarted
  obtain ⟨records, entries, _, _, timed, rfl⟩ := restore_ok restored
  exact .silent inv member ⟨m.configured n member, rfl, m.size member, ⟨durable, rfl, timed⟩⟩ grown
    (Or.inl rfl) (Or.inl rfl) rfl (by simp) (by simp [Uncontested])

theorem hardAfter_grown {core : Core} (running : core.Running) (call : Call) (clock : Clock)
    (outcomes : List PersistOutcome) :
    core.hard.Le (hardAfter call clock outcomes core).load := by
  have saved : ({ core.hardPath with outcomes } : HardFile).load = core.hard := running.saved
  obtain ⟨faulty, same⟩ : ∃ faulty, faulty =
    { core with hardPath := { core.hardPath with outcomes } } := ⟨_, rfl⟩
  have grown : core.hard.Le faulty.hard := by rw [same]; exact .refl _
  have saved : faulty.hardPath.load = faulty.hard := by rw [same]; exact saved
  simp only [hardAfter, ← same]
  cases call with
  | timeout => exact (becomeCandidate_recorded grown saved).1
  | requestVote call => exact (handleRequestVote_recorded grown saved call.args).1
  | appendEntries call => exact (handleAppendEntries_recorded grown saved call.args).1
  | voteAnswer answer => exact (becomeFollower_recorded grown saved).1
  | appendAnswer answer => exact (becomeFollower_recorded grown saved).1

/-- Every action respects the rules, interrupted ones included. -/
theorem effect_rules (inv : Elections m c) {action : Action} (member : action.node ∈ m.members)
    (acted : effect m c action = some e) : VoteRules m c action.node e := by
  cases effect_acts acted with
  | timeout n clock => exact timeout_rules inv member clock
  | requestVote clock sent => exact requestVote_rules inv sent clock
  | voteAnswer running sent asked waits => exact voteAnswer_rules inv member sent running asked waits
  | propose n command => exact propose_rules inv member command
  | appendEntries clock => exact appendEntries_rules inv member clock
  | appendAnswer => exact appendAnswer_rules inv member
  | take n =>
    exact .unchanged inv member (takeLoop_side _ _).ballot (Or.inr rfl) rfl rfl
      (appliedEvents_uncontested _ _ _)
  | build | publish | acknowledge | deadlineExceeded =>
    exact .unchanged inv member rfl (Or.inr rfl) rfl rfl (by simp [Uncontested])
  | compact =>
    exact .unchanged inv member (compact_side _ _).ballot (Or.inr rfl) rfl rfl (by simp [Uncontested])
  | @crash n clock e restarted =>
    have running := (inv.node n member).running
    exact restart_rules inv member running.durable (running.saved ▸ .refl _) restarted
  | @crashUncompacted n clock index e _ _ restarted =>
    have running := (inv.node n member).running
    exact restart_rules inv member running.durable (running.saved ▸ .refl _) restarted
  | @interrupt n call clock outcomes snapshot log e enabled restarted =>
    exact restart_rules inv member rfl
      (hardAfter_grown (inv.node n member).running call clock outcomes) restarted

theorem effect_contested {action : Action} (acted : effect m c action = some e) :
    Contested c action e.events := by
  have nothing {action : Action} : Contested c action [] := Uncontested.contested (by simp [Uncontested])
  cases effect_acts acted with
  | timeout n clock =>
    unfold timeoutEffect
    split
    · exact ⟨fun _ _ _ _ => rfl, by simp⟩
    · exact nothing
  | @requestVote call clock =>
    unfold requestVoteEffect
    split
    · rename_i reply core ran
      refine ⟨fun v u x vote => ?_, fun core won => ?_⟩
      · simp only [votes, Cluster.core, ran]
        by_contra refused
        simp [refused] at vote
      · split_ifs at won <;> simp at won
    · exact nothing
  | voteAnswer =>
    unfold voteAnswerEffect
    split_ifs with newer stale
    · exact nothing
    · exact nothing
    · refine ⟨fun v u x vote => ?_, fun _ _ => ?_⟩
      · rcases List.mem_cons.mp vote with impossible | vote
        · cases impossible
        · exact absurd rfl ((commitEvent_uncontested _ _ _ vote).1 v u x)
      · by_contra other
        exact stale (Or.inl other)
    · exact nothing
    · exact nothing
  | propose n command =>
    unfold proposeEffect
    split
    · exact (commitEvent_uncontested _ _).contested
    · exact nothing
  | appendEntries =>
    unfold appendEntriesEffect
    split <;> exact nothing
  | appendAnswer =>
    unfold appendAnswerEffect
    split_ifs
    · exact nothing
    · exact nothing
    · exact (commitEvent_uncontested _ _).contested
  | take => exact (appliedEvents_uncontested _ _ _).contested
  | build | publish | deadlineExceeded | compact => exact nothing
  | acknowledge => exact Uncontested.contested (by simp [Uncontested])
  | crash restarted | crashUncompacted _ _ restarted | interrupt _ restarted =>
    obtain ⟨core, _, rfl⟩ := restart_ok restarted
    exact nothing

theorem elections_step (inv : Elections m c) {action : Action} {c' : Cluster}
    (stepped : step m c action = some c') : Elections m c' := by
  obtain ⟨member, e, acted, rfl⟩ := step_ok stepped
  exact inv.act member (effect_rules inv member acted)

theorem elections_initial (start : Initial m c) : Elections m c where
  node n member := by
    obtain ⟨clock, core, restored, server⟩ := start.server n member
    obtain ⟨records, entries, _, _, timed, rfl⟩ := restore_ok restored
    rw [Cluster.core, server]
    exact ⟨m.configured n member, rfl, m.size member, ⟨rfl, rfl, timed⟩⟩
  recorded vote := by simp [start.trace] at vote
  once vote := by simp [start.trace] at vote
  asked call sent := by simp [start.voteCalls] at sent
  answered answer sent := by simp [start.voteAnswers] at sent
  counted n member campaign running := by
    obtain ⟨clock, core, _, server⟩ := start.server n member
    simp [server, Server.fresh] at running
  won elected := by simp [start.trace] at elected
  past elected := by simp [start.trace] at elected
  leads n member leader := by
    obtain ⟨clock, core, restored, server⟩ := start.server n member
    obtain ⟨records, entries, _, _, timed, rfl⟩ := restore_ok restored
    rw [Cluster.core, server] at leader
    cases leader

theorem reachable_elections {guard : Cluster → Action → Prop} (run : Reachable m guard c) :
    Elections m c := by
  obtain ⟨start, initial, run⟩ := run
  exact run.invariant (elections_initial initial) fun inv _ stepped => elections_step inv stepped

/-- Election safety: no two nodes ever win the same term, and no two nodes lead
the same term at the same time. -/
theorem election_safety (run : Reachable m (fun _ _ => True) c) :
    (∀ a b : Core, .elected a ∈ c.trace → .elected b ∈ c.trace →
      a.hard.currentTerm = b.hard.currentTerm → a.id = b.id) ∧
    ∀ n ∈ m.members, ∀ k ∈ m.members,
      (c.server n).core.role = .leader → (c.server k).core.role = .leader →
      (c.server n).core.hard.currentTerm = (c.server k).core.hard.currentTerm → n = k := by
  have inv := reachable_elections run
  refine ⟨fun a b first second same => inv.unique first second same, ?_⟩
  intro n first k second leadsN leadsK same
  obtain ⟨a, electedA, rfl, termA⟩ := inv.leads n first leadsN
  obtain ⟨b, electedB, rfl, termB⟩ := inv.leads k second leadsK
  exact inv.unique electedA electedB (termA.trans (same.trans termB.symm))

end Actions

/-- Nodes 1 and 2 campaign in one term. Node 3 votes for node 1, crashes, is
asked by node 2, and node 1 wins. -/
def rivals : List Action :=
  [.timeout 1 ⟨0, 0⟩, .timeout 2 ⟨0, 0⟩,
    .requestVote ⟨1, 3, ⟨1, 1, 0, 0⟩⟩ ⟨0, 0⟩, .crash 3 ⟨0, 0⟩,
    .requestVote ⟨2, 3, ⟨1, 2, 0, 0⟩⟩ ⟨0, 0⟩, .voteAnswer ⟨3, 1, 1, ⟨1, true⟩⟩]

theorem election_safety_rivals : ∃ c, Reachable trio (fun _ _ => True) c ∧
    (c.server 1).core.role = .leader ∧ (c.server 2).core.hard.currentTerm = 1 ∧
    ∀ k ∈ trio.members, (c.server k).core.role = .leader →
      (c.server 1).core.hard.currentTerm = (c.server k).core.hard.currentTerm → 1 = k := by
  have ran : ((Transition.execute (step trio) (fun _ _ => True) (boot trio ⟨0, 0⟩) rivals).any
      fun c => decide ((c.server 1).core.role = .leader ∧
        (c.server 2).core.hard.currentTerm = 1)) = true := by
    decide +kernel
  obtain ⟨c, reached, shown⟩ := boot_shows trio ⟨0, 0⟩ trio_timed ran
  obtain ⟨leads, rival⟩ := of_decide_eq_true shown
  refine ⟨c, reached, leads, rival, fun k member other same => ?_⟩
  exact (election_safety reached).2 1 (by decide) k member leads other same

end WalKv
