import WalKv.Cluster.Simulation.Voting

/-! Actions of a leader: winning a campaign, appending, counting
acknowledgements, building requests. In the protocol the leader is elected,
appends to its term's log and commits what a majority holds. -/
namespace WalKv
open RaftCore Function
open Consensus (Led Known Extends Invariant lastTerm UpToDate Step Steps)

variable [Bincode] {m : Membership} {c : Cluster} {a a' : Spec} {n : Nat} {e : Effect}

omit [Bincode] in
/-- The candidate for the commit index is reached by a majority: on the node
itself by its own log, on a peer by what it acknowledged. -/
theorem reached_majority {core : Core} (node : Member m n core) (member : n ∈ m.members)
    {k : Nat} (positive : 0 < k) (found : core.sortedMatches[core.quorum - 1]? = some k) :
    Consensus.Majority m.members fun v =>
      v = n ∧ k ≤ core.lastLogIndex ∨ ∃ i, core.matchIndex v = some i ∧ k ≤ i := by
  have same : core.peers.map (fun p => (core.matchIndex p).getD 0) ++ [core.lastLogIndex] =
      (core.peers ++ [n]).map
        (fun v => if v = n then core.lastLogIndex else (core.matchIndex v).getD 0) := by
    rw [List.map_append, List.map_singleton, if_pos rfl]
    congr 1
    refine List.map_congr_left fun p listed => ?_
    rw [if_neg (node.peer member listed).2]
  have shared : (core.peers ++ [n]).Perm m.members := node.peers ▸ m.shared n member
  have distinct : (core.peers ++ [n]).Nodup := by
    have nodup := Config.validate_nodup (m.valid n member)
    rwa [m.configured n member, ← node.peers] at nodup
  rw [sortedMatches, same, RaftCore.quorum, node.clusterSize, ← shared.length_eq,
    Nat.add_sub_cancel] at found
  refine ((Consensus.majority_of_middle distinct found).perm shared).mono fun v _ reached => ?_
  by_cases self : v = n
  · rw [if_pos self] at reached
    exact Or.inl ⟨self, reached⟩
  · rw [if_neg self] at reached
    rcases acked : core.matchIndex v with _ | i <;> rw [acked] at reached
    · simp only [Option.getD_none] at reached
      omega
    · exact Or.inr ⟨i, rfl, reached⟩

/-- What a leader's own actions leave alone. -/
structure Own (q : Consensus.Quorums Nat) (n : Nat) (a a' : Spec) : Prop where
  steps : Steps q a a'
  lead : a'.lead = a.lead
  hist : ∀ t, t ≠ a.term n → a'.hist t = a.hist t
  term : a'.term n = a.term n
  others : ∀ v, v ≠ n → a'.term v = a.term v ∧ a'.log v = a.log v ∧ a'.commit v = a.commit v

omit [Bincode] in
theorem Own.trans {q : Consensus.Quorums Nat} {a'' : Spec} (first : Own q n a a')
    (second : Own q n a' a'') : Own q n a a'' where
  steps := first.steps.trans second.steps
  lead := second.lead.trans first.lead
  hist t other := (second.hist t (first.term ▸ other)).trans (first.hist t other)
  term := second.term.trans first.term
  others v other := by
    obtain ⟨term, log, commit⟩ := first.others v other
    obtain ⟨term', log', commit'⟩ := second.others v other
    exact ⟨term'.trans term, log'.trans log, commit'.trans commit⟩

/-- A leader that advances its commit index commits in the protocol. -/
theorem advance_own {core : Core} (node : Member m n core) (member : n ∈ m.members)
    (stands : Stands a n core) (leading : core.role = .leader) :
    ∃ a', Own m.quorums n a a' ∧ a'.hist = a.hist ∧ Stands a' n core.advanceCommitIndex ∧
      (core.commitIndex < core.advanceCommitIndex.commitIndex →
        a'.commits core.hard.currentTerm core.advanceCommitIndex.commitIndex) := by
  have leads := stands.leads leading
  have term := stands.term
  rcases advanceCommitIndex_cases core with same | ⟨k, found, above, own, advanced⟩
  · rw [same]
    exact ⟨a, ⟨.refl, rfl, fun _ _ => rfl, rfl, fun _ _ => ⟨rfl, rfl, rfl⟩⟩, rfl, stands,
      fun moved => absurd moved (Nat.lt_irrefl _)⟩
  have compacted := stands.compacted
  have applied := stands.applied
  have within : k ≤ (a.log n).length := by
    by_contra beyond
    rw [stands.sound.holds.termAt_above (by omega)] at own
    cases own
  have stamped : Consensus.OwnEntry a (a.term n) k := by
    rw [stands.sound.holds.termAt (by omega) within] at own
    obtain ⟨i, rfl⟩ : ∃ i, k = i + 1 := ⟨k - 1, by omega⟩
    have found : (a.log n)[i]? = some (a.log n)[i] := List.getElem?_eq_getElem (by omega)
    rw [Consensus.termAt_succ, found] at own
    refine ⟨(a.log n).take i, (a.log n)[i], ?_, (Option.some.inj own).trans term.symm⟩
    rw [term, ← leads.log]
    exact (List.take_append_getElem (by omega)).symm
  have held := reached_majority node member (by omega) found
  rw [stands.sound.holds.lastLogIndex] at held
  obtain ⟨a', steps, lead, hist, log, term', commit, others, commits⟩ :=
    Consensus.commit_as_leader (q := m.quorums) (n := n) (k := k) (term ▸ leads.led)
      (term ▸ leads.log) stamped
      (held.mono fun v _ holder => holder.imp_right fun ⟨i, found, reached⟩ =>
        ⟨i, reached, term ▸ (leads.acked v i found).resolve_left (by omega)⟩) within
  refine ⟨a', ⟨steps, lead, fun t _ => by rw [hist], by rw [term'],
    fun v other => ⟨by rw [term'], by rw [log], others v other⟩⟩, hist, ?_, ?_⟩
  · rw [advanced]
    have grown := Consensus.steps_extends steps
    exact
      { sound := by rw [log]; exact stands.sound.congr rfl rfl rfl
        term := by rw [term']; exact term
        commit := commit
        compacted := compacted
        applied := applied.trans above.le
        leads := fun _ => ⟨grown.led leads.led, by rw [log, hist]; exact leads.log,
          by rw [log]; exact leads.next,
          fun p i found => (leads.acked p i found).imp_right grown.acks⟩ }
  · rw [advanced, ← term]
    exact fun _ => commits

/-- An entry appended in the leader's term. -/
theorem append_own {core : Core} {q : Consensus.Quorums Nat} (stands : Stands a n core)
    (leading : core.role = .leader) (storable : ∀ {t}, Led a t → Storable (a.hist t))
    {entry : LogEntry} (stamp : entry.term = core.hard.currentTerm)
    (next : entry.index = (a.log n).length + 1) {bytes : Bytes}
    (encoded : Bincode.serialize entry = .ok bytes) :
    ∃ a', Own q n a a' ∧ (∀ {t}, Led a' t → Storable (a'.hist t)) ∧
      Stands a' n (core.withEntry bytes entry) := by
  have leads := stands.leads leading
  have term := stands.term
  have appended : Step q a (Consensus.append a n entry) :=
    .append n entry (term ▸ leads.led) (term ▸ leads.log) (stamp.trans term.symm)
  have log : (Consensus.append a n entry).log n = a.log n ++ [entry] := by
    simp [Consensus.append]
  have hist : (Consensus.append a n entry).hist core.hard.currentTerm = a.log n ++ [entry] := by
    simp [Consensus.append, term]
  have old : ∀ t, t ≠ a.term n → (Consensus.append a n entry).hist t = a.hist t := by
    intro t other
    simp [Consensus.append, other]
  refine ⟨_, ⟨.single appended, rfl, old, rfl, fun v other => ⟨rfl, ?_, rfl⟩⟩, ?_, ?_⟩
  · simp [Consensus.append, other]
  · intro t led
    by_cases here : t = a.term n
    · have stored := storable leads.led
      rw [← leads.log] at stored
      rw [here, term, hist]
      refine ⟨stored.indexed.concat next, fun x member => ?_⟩
      rcases List.mem_append.mp member with earlier | last
      · exact stored.encodable x earlier
      · rw [List.mem_singleton.mp last]
        exact ⟨bytes, encoded⟩
    · rw [old t here]
      exact storable led
  · refine ⟨log ▸ stands.sound.withEntry next encoded, term, stands.commit, stands.compacted,
      stands.applied, fun _ => ⟨leads.led, log.trans hist.symm, fun p i found => ?_, leads.acked⟩⟩
    obtain ⟨first, last⟩ := leads.next p i found
    rw [log, List.length_append]
    omega

theorem appendAsLeader_run {core : Core} {l : List LogEntry} (sound : core.Sound l)
    (leading : core.role = .leader) (command : Command) {entry : LogEntry}
    (made : entry = ⟨core.hard.currentTerm, l.length + 1, command⟩) :
    appendAsLeader command core = match Bincode.serialize entry with
      | .ok bytes => (.ok entry, (core.withEntry bytes entry).advanceCommitIndex)
      | .error error => (.error (.err error), core) := by
  simp only [appendAsLeader, Fallible.bind_run, sound.appendCommand leading command made]
  rcases Bincode.serialize entry with error | bytes
  · rfl
  · rfl

theorem appendAsLeader_refused {core : Core} (leading : core.role ≠ .leader) (command : Command) :
    appendAsLeader command core =
      (.error (.err (.raft "only the leader may append commands")), core) := by
  simp [appendAsLeader, appendCommand, leading]

theorem appendAsLeader_ok {core core' : Core} {l : List LogEntry} {command : Command}
    {entry : LogEntry} (sound : core.Sound l)
    (ran : appendAsLeader command core = (.ok entry, core')) :
    core.role = .leader ∧ entry = ⟨core.hard.currentTerm, l.length + 1, command⟩ ∧
      ∃ bytes, Bincode.serialize entry = .ok bytes ∧
        core' = (core.withEntry bytes entry).advanceCommitIndex := by
  by_cases leading : core.role = .leader
  · rw [appendAsLeader_run sound leading command rfl] at ran
    rcases encoded : Bincode.serialize ⟨core.hard.currentTerm, l.length + 1, command⟩
      with error | bytes <;> rw [encoded] at ran <;> cases ran
    exact ⟨leading, rfl, bytes, encoded, rfl⟩
  · rw [appendAsLeader_refused leading] at ran
    cases ran

theorem appendAsLeader_own {core : Core} (node : Member m n core) (member : n ∈ m.members)
    (stands : Stands a n core) (leading : core.role = .leader)
    (storable : ∀ {t}, Led a t → Storable (a.hist t)) (command : Command) :
    ∃ a', Own m.quorums n a a' ∧ (∀ {t}, Led a' t → Storable (a'.hist t)) ∧
      Stands a' n (appendAsLeader command core).2 ∧
      (core.commitIndex < (appendAsLeader command core).2.commitIndex →
        a'.commits core.hard.currentTerm (appendAsLeader command core).2.commitIndex) := by
  obtain ⟨entry, made⟩ : ∃ entry : LogEntry,
    entry = ⟨core.hard.currentTerm, (a.log n).length + 1, command⟩ := ⟨_, rfl⟩
  rw [appendAsLeader_run stands.sound leading command made]
  rcases encoded : Bincode.serialize entry with error | bytes
  · exact ⟨a, ⟨.refl, rfl, fun _ _ => rfl, rfl, fun _ _ => ⟨rfl, rfl, rfl⟩⟩, storable, stands,
      fun moved => absurd moved (Nat.lt_irrefl _)⟩
  · obtain ⟨a₁, first, storable₁, stands₁⟩ := append_own (q := m.quorums) stands leading storable
      (by rw [made]) (by rw [made]) encoded
    have node₁ : Member m n (core.withEntry bytes entry) := node.congr rfl
    obtain ⟨a₂, second, hist, stands₂, commits⟩ := advance_own node₁ member stands₁ leading
    refine ⟨a₂, first.trans second, fun led => ?_, stands₂, commits⟩
    rw [hist]
    exact storable₁ (by rwa [Led, ← second.lead])

theorem commitEvent_meaning {before after : Core} (inv : Invariant m.quorums a)
    (stands : Stands a n after) (leading : after.role = .leader)
    (commits : before.commitIndex < after.commitIndex →
      a.commits after.hard.currentTerm after.commitIndex) {core : Core}
    (event : .committed core ∈ commitEvent before after) :
    a.commits core.hard.currentTerm core.commitIndex ∧
      ∃ l, core.Holds l ∧ core.commitIndex ≤ l.length ∧ l <+: a.hist core.hard.currentTerm := by
  unfold commitEvent at event
  split_ifs at event with moved
  · cases List.mem_singleton.mp event
    have log := (stands.leads leading).log
    exact ⟨commits moved, a.log n, stands.sound.holds, log ▸ inv.commit_within (commits moved),
      log ▸ List.prefix_rfl⟩
  · cases event

omit [Bincode] in
theorem commitEvent_after {before after core : Core}
    (event : .committed core ∈ commitEvent before after) : core = after := by
  unfold commitEvent at event
  split_ifs at event
  · cases List.mem_singleton.mp event
    rfl
  · cases event

omit [Bincode] in
theorem commitEvent_unapplied (before after : Core) (k i : Nat) (x : LogEntry) :
    .applied k i x ∉ commitEvent before after := by
  unfold commitEvent
  split_ifs <;> simp

/-- Moves of a leader on its own log; no other leader shares its term. -/
theorem Own.moves (rel : Refines m c a) (own : Own m.quorums n a a')
    (member : n ∈ m.members) (leading : (c.core n).role = .leader)
    (storable : ∀ {t}, Led a' t → Storable (a'.hist t)) (node : Stands a' n e.server.core)
    (role : e.server.core.role = .leader) (calls : e.voteCalls = [])
    (requests : e.appendCalls = []) (answers : e.appendAnswers = [])
    (before : Core) (events : e.events = commitEvent before e.server.core)
    (commits : before.commitIndex < e.server.core.commitIndex →
      a'.commits e.server.core.hard.currentTerm e.server.core.commitIndex) :
    Moves m c a n e a' where
  steps := own.steps
  others := own.others
  hist v voter other leads := by
    refine own.hist _ fun same => other ?_
    rw [(rel.node n member).term] at same
    obtain ⟨a, electedA, rfl, termA⟩ := rel.elections.leads v voter leads
    obtain ⟨b, electedB, rfl, termB⟩ := rel.elections.leads n member leading
    exact rel.elections.unique electedA electedB (termA.trans (same.trans termB.symm))
  node := node
  storable := storable
  candidate candidate := absurd (role.symm.trans candidate) (by decide)
  asked := by simp [calls]
  voted vote := by
    rw [events] at vote
    exact absurd rfl ((commitEvent_uncontested _ _ _ vote).1 _ _ _)
  sent := by simp [requests]
  acked := by simp [answers]
  elected won := by
    rw [events] at won
    exact absurd rfl ((commitEvent_uncontested _ _ _ won).2 _)
  wonBy led := Or.inl (by rwa [Led, ← own.lead])
  committed event := commitEvent_meaning
    (Consensus.reachable_invariant (rel.run.trans own.steps)).1 node role commits (events ▸ event)
  applied event := absurd (events ▸ event) (commitEvent_unapplied _ _ _ _ _)
  shown core := by
    rw [events]
    exact ⟨fun won => absurd rfl ((commitEvent_uncontested _ _ _ won).2 _), commitEvent_after⟩

theorem propose_moves (rel : Refines m c a) (member : n ∈ m.members) (command : Command) :
    ∃ a', Moves m c a n (proposeEffect command (c.server n)) a' := by
  have stands := rel.node n member
  by_cases leading : (c.core n).role = .leader
  · obtain ⟨a', own, storable, stands', commits⟩ :=
      appendAsLeader_own (rel.elections.node n member) member stands leading rel.storable command
    have same := (appendAsLeader_side command (c.core n)).ballot
    have role : (appendAsLeader command (c.core n)).2.role = .leader :=
      (congrArg Ballot.role same).trans leading
    have hard : (appendAsLeader command (c.core n)).2.hard = (c.core n).hard :=
      congrArg Ballot.hard same
    rw [← hard] at commits
    refine ⟨a', ?_⟩
    unfold proposeEffect
    split
    · rename_i entry core ran
      rw [ran] at stands' role commits
      exact own.moves rel member leading storable stands' role rfl rfl rfl _ rfl commits
    · rename_i stop core ran
      rw [ran] at stands' role commits
      exact own.moves rel member leading storable stands' role rfl rfl rfl core
        (by simp [commitEvent]) (fun moved => absurd moved (Nat.lt_irrefl _))
  · simp only [proposeEffect, appendAsLeader_refused leading]
    exact ⟨a, .stay rel stands (fun role => ⟨role, rfl⟩) rfl rfl (by simp) (by simp [Uncontested])
      (by simp) (by simp)⟩

theorem Refines.storable_log (rel : Refines m c a) (member : n ∈ m.members) :
    Storable (a.log n) := by
  refine ⟨(rel.node n member).sound.holds.indexed, fun x inside => ?_⟩
  obtain ⟨p, rest, same⟩ := List.append_of_mem inside
  have shorter : p ++ [x] <+: a.log n := ⟨rest, by simp [same]⟩
  obtain ⟨led, within⟩ := rel.invariant.rooted n p x shorter
  exact (rel.storable led).encodable x (within.mem (by simp))

theorem Refines.vacant (rel : Refines m c a) (role : (c.core n).role = .candidate)
    (carried : Carried m c.trace n (c.core n).hard.currentTerm) :
    ¬ Led a (c.core n).hard.currentTerm := by
  intro led
  obtain ⟨core, won, term⟩ := rel.wonBy led
  obtain ⟨v, _, first, second⟩ := (rel.elections.won won).2.meet carried
  rw [term] at first
  have same : core.id = n := rel.elections.once first second
  rcases rel.elections.past won with earlier | ⟨_, other⟩
  · rw [same] at earlier
    omega
  · exact other (same ▸ role)

theorem elect_step (rel : Refines m c a) (member : n ∈ m.members)
    (role : (c.core n).role = .candidate)
    (carried : Carried m c.trace n (c.core n).hard.currentTerm) :
    ¬ Led a (c.core n).hard.currentTerm ∧ Step m.quorums a (Consensus.elect a n) := by
  have term := (rel.node n member).term
  have unled := rel.vacant role carried
  refine ⟨unled, .elect n {v | Event.voted v (c.core n).hard.currentTerm n ∈ c.trace} carried
    (Consensus.vacant_of_not_led (term ▸ unled)) fun v vote => ?_⟩
  obtain ⟨l, given, order⟩ := (rel.voted vote).resolve_left unled
  exact ⟨l, term ▸ given, order role rfl⟩

omit [Bincode] in
theorem elect_own (a : Spec) (n : Nat) :
    (Consensus.elect a n).lead (a.term n) = some (a.log n) ∧
      (Consensus.elect a n).hist (a.term n) = a.log n := by
  simp [Consensus.elect]

omit [Bincode] in
theorem elect_other {t : Nat} (other : t ≠ a.term n) :
    (Consensus.elect a n).lead t = a.lead t ∧ (Consensus.elect a n).hist t = a.hist t := by
  simp [Consensus.elect, other]

theorem Stands.elected {core : Core} (stands : Stands a n core) :
    Stands (Consensus.elect a n) n core.becomeLeader := by
  obtain ⟨lead, hist⟩ := elect_own a n
  rw [stands.term] at lead hist
  refine ⟨stands.sound.congr rfl rfl rfl, stands.term, stands.commit, stands.compacted,
    stands.applied, fun _ => ⟨⟨_, lead⟩, hist.symm, fun p i found => ?_, fun p i found => ?_⟩⟩
  · simp only [becomeLeader, Option.ite_none_right_eq_some, Option.some.injEq] at found
    rw [← found.2, stands.sound.holds.lastLogIndex]
    exact ⟨Nat.succ_pos _, le_rfl⟩
  · simp only [becomeLeader, Option.ite_none_right_eq_some, Option.some.injEq] at found
    exact Or.inl found.2.symm

theorem elect_storable (rel : Refines m c a) (member : n ∈ m.members) {t : Nat}
    (led : Led (Consensus.elect a n) t) : Storable ((Consensus.elect a n).hist t) := by
  by_cases here : t = a.term n
  · rw [here, (elect_own a n).2]
    exact rel.storable_log member
  · obtain ⟨lead, hist⟩ := elect_other here
    rw [hist]
    exact rel.storable (by rwa [Led, ← lead])

theorem win_moves (rel : Refines m c a) (member : n ∈ m.members)
    (role : (c.core n).role = .candidate)
    (carried : Carried m c.trace n (c.core n).hard.currentTerm) :
    ∃ a', Moves m c a n (winEffect (c.server n)) a' := by
  have node := rel.elections.node n member
  have stands := rel.node n member
  have term := stands.term
  obtain ⟨unled, elected⟩ := elect_step rel member role carried
  have holds : (c.core n).becomeLeader.Holds (a.log n) := stands.sound.holds.congr rfl rfl
  obtain ⟨a', own, storable', stands', commits⟩ :=
    appendAsLeader_own node.becomeLeader member stands.elected rfl
      (elect_storable rel member) .noop
  have same := (appendAsLeader_side .noop (c.core n).becomeLeader).ballot
  have leads : (appendAsLeader .noop (c.core n).becomeLeader).2.role = .leader :=
    congrArg Ballot.role same
  have hard : (appendAsLeader .noop (c.core n).becomeLeader).2.hard = (c.core n).hard :=
    congrArg Ballot.hard same
  have elsewhere : ∀ v ∈ m.members, (c.core v).role = .leader →
      (c.core v).hard.currentTerm ≠ (c.core n).hard.currentTerm := by
    intro v voter leads here
    obtain ⟨core, won, _, now⟩ := rel.elections.leads v voter leads
    obtain ⟨b, before, _⟩ := rel.elected won
    exact unled ⟨b, here ▸ now ▸ before⟩
  refine ⟨a',
    { steps := .head elected own.steps
      others := own.others
      hist := fun v voter _ leads => ?_
      node := stands'
      storable := storable'
      candidate := fun candidate => absurd (leads.symm.trans candidate) (by decide)
      asked := by simp [winEffect]
      voted := fun vote => ?_
      sent := by simp [winEffect]
      acked := by simp [winEffect]
      elected := fun won => ?_
      wonBy := fun led => ?_
      committed := fun event => ?_
      applied := fun event => ?_
      shown := fun core => ⟨fun won => ?_, fun event => ?_⟩ }⟩
  · have other := elsewhere v voter leads
    rw [← term] at other
    rw [own.hist _ other, (elect_other other).2]
  · rcases List.mem_cons.mp vote with impossible | event
    · cases impossible
    · exact absurd rfl ((commitEvent_uncontested _ _ _ event).1 _ _ _)
  · rcases List.mem_cons.mp won with same | event
    · cases same
      exact ⟨a.log n, by rw [own.lead, ← (elect_own a n).1, term]; rfl, holds⟩
    · exact absurd rfl ((commitEvent_uncontested _ _ _ event).2 _)
  · rename_i t
    by_cases here : t = (c.core n).hard.currentTerm
    · exact Or.inr ⟨(c.core n).becomeLeader, by simp [winEffect], here.symm⟩
    · refine Or.inl ?_
      rwa [Led, own.lead, (elect_other (term ▸ here)).1] at led
  · rcases List.mem_cons.mp event with impossible | event
    · cases impossible
    · have inv := (Consensus.reachable_invariant (rel.run.trans (.head elected own.steps))).1
      exact commitEvent_meaning inv stands' leads (hard ▸ commits) event
  · rcases List.mem_cons.mp event with impossible | event
    · cases impossible
    · exact absurd event (commitEvent_unapplied _ _ _ _ _)
  · rcases List.mem_cons.mp won with same | event
    · cases same
      rfl
    · exact absurd rfl ((commitEvent_uncontested _ _ _ event).2 _)
  · rcases List.mem_cons.mp event with impossible | event
    · cases impossible
    · exact commitEvent_after event

theorem voteAnswer_moves (rel : Refines m c a) {answer : VoteAnswer} {campaign : Campaign}
    (member : answer.candidate ∈ m.members) (sent : answer ∈ c.voteAnswers)
    (running : (c.server answer.candidate).campaign = some campaign)
    (asked : answer.term = campaign.term) (waits : answer.voter ∈ campaign.waiting) :
    ∃ a', Moves m c a answer.candidate
      (voteAnswerEffect answer campaign (c.server answer.candidate)) a' := by
  have node := rel.elections.node answer.candidate member
  have unmoved {campaign : Option Campaign} : ∃ a', Moves m c a answer.candidate
      { server := { c.server answer.candidate with campaign } } a' :=
    ⟨a, .stay rel (rel.node _ member) (fun role => ⟨role, rfl⟩) rfl rfl (by simp)
      (by simp [Uncontested]) (by simp) (by simp)⟩
  unfold voteAnswerEffect
  split_ifs with newer stale granted enough
  · rw [node.running.becomeFollower newer]
    exact observe_moves rel member rfl rfl rfl rfl rfl
  · exact unmoved
  · obtain ⟨role, now⟩ := not_or.mp stale
    obtain ⟨voters, counted⟩ := rel.elections.counted _ member campaign running
    have voted := rel.elections.answered answer sent granted
    rw [asked] at voted
    rw [RaftCore.quorum, node.clusterSize] at enough
    refine win_moves rel member (not_not.mp role) ?_
    rw [not_not.mp now]
    exact counted.carried waits voted enough
  · exact unmoved
  · exact unmoved

/-- A leader above its snapshot builds a request that shows its log to the end. -/
theorem build_shows (rel : Refines m c a) (member : n ∈ m.members)
    (leading : (c.core n).role = .leader) {peer : Nat}
    (served : (c.core n).snapshot.lastIncludedIndex <
      ((c.core n).nextIndex peer).getD ((c.core n).lastLogIndex + 1)) :
    Shows a ((c.core n).buildAppendEntries peer) := by
  have stands := rel.node n member
  have leads := stands.leads leading
  have holds := stands.sound.holds
  have last := holds.lastLogIndex
  obtain ⟨next, chosen⟩ : ∃ next, next =
    ((c.core n).nextIndex peer).getD ((c.core n).lastLogIndex + 1) := ⟨_, rfl⟩
  have range : 1 ≤ next ∧ next ≤ (a.log n).length + 1 := by
    rcases found : (c.core n).nextIndex peer with _ | i <;> rw [found] at chosen
    · simp only [Option.getD_none] at chosen
      omega
    · rw [chosen]
      exact leads.next peer i found
  rw [← chosen] at served
  have request : (c.core n).buildAppendEntries peer =
      { term := (c.core n).hard.currentTerm
        leaderId := (c.core n).id
        prevLogIndex := next - 1
        prevLogTerm := Consensus.termAt (a.log n) (next - 1)
        entries := (a.log n).drop (next - 1)
        leaderCommit := (c.core n).commitIndex } := by
    simp only [buildAppendEntries, ← chosen, holds.entriesFrom served,
      holds.termAt (show (c.core n).snapshot.lastIncludedIndex ≤ next - 1 by omega)
        (show next - 1 ≤ (a.log n).length by omega), Option.getD_some]
  have sent : ((c.core n).buildAppendEntries peer).lastSent = (a.log n).length := by
    simp only [request, AppendEntriesArgs.lastSent, List.length_drop]
    omega
  have known := rel.known n
  rw [stands.commit] at known
  rw [leads.log] at sent
  refine ⟨?_, sent.le, ?_, ?_, ?_, ?_⟩
  · rw [request]
    exact leads.led
  · rw [sent, request, List.take_length, leads.log]
  · rw [request, leads.log]
  · rw [sent, request, ← leads.log]
    exact known.within rel.invariant
  · rw [request]
    refine known.imp_right fun ⟨u, k, committed, reached, within, _⟩ => ?_
    exact ⟨u, k, committed, stands.term ▸ reached, within⟩

theorem build_moves (rel : Refines m c a) (member : n ∈ m.members)
    (leading : (c.core n).role = .leader) {peer : Nat}
    (served : (c.core n).snapshot.lastIncludedIndex <
      ((c.core n).nextIndex peer).getD ((c.core n).lastLogIndex + 1)) :
    Moves m c a n
      { server := c.server n
        appendCalls := [⟨n, peer, (c.core n).buildAppendEntries peer⟩] } a := by
  have silent : Moves m c a n { server := c.server n } a :=
    .stay rel (rel.node n member) (fun role => ⟨role, rfl⟩) rfl rfl (by simp)
      (by simp [Uncontested]) (by simp) (by simp)
  refine { silent with sent := fun call sent => ?_, voted := by simp }
  rw [List.mem_singleton.mp sent]
  exact build_shows rel member leading served

section Bookkeeping
variable {core : Core} (peer : Nat) {i : Nat}

omit [Bincode] in
/-- The leader's bookkeeping with one peer's next index replaced. -/
def nextAt (i : Nat) (core : Core) : Core :=
  { core with nextIndex := update core.nextIndex peer (some i) }

omit [Bincode] in
/-- The same for the match index. -/
def matchAt (i : Nat) (core : Core) : Core :=
  { core with matchIndex := update core.matchIndex peer (some i) }

theorem Stands.nextAt (stands : Stands a n core) (leading : core.role = .leader)
    (range : 1 ≤ i ∧ i ≤ (a.log n).length + 1) : Stands a n (nextAt peer i core) where
  sound := stands.sound.congr rfl rfl rfl
  term := stands.term
  commit := stands.commit
  compacted := stands.compacted
  applied := stands.applied
  leads _ := by
    have leads := stands.leads leading
    refine ⟨leads.led, leads.log, fun p j found => ?_, leads.acked⟩
    by_cases here : p = peer
    · simp only [WalKv.nextAt, here, update_self, Option.some.injEq] at found
      rwa [← found]
    · simp only [WalKv.nextAt, update_of_ne here] at found
      exact leads.next p j found

/-- A match index may be anything the peer acknowledged. -/
theorem Stands.matchAt (stands : Stands a n core) (leading : core.role = .leader)
    (acked : a.acks peer core.hard.currentTerm i) : Stands a n (matchAt peer i core) where
  sound := stands.sound.congr rfl rfl rfl
  term := stands.term
  commit := stands.commit
  compacted := stands.compacted
  applied := stands.applied
  leads _ := by
    have leads := stands.leads leading
    refine ⟨leads.led, leads.log, leads.next, fun p j found => ?_⟩
    by_cases here : p = peer
    · simp only [WalKv.matchAt, here, update_self, Option.some.injEq] at found
      rw [here, ← found]
      exact Or.inr acked
    · simp only [WalKv.matchAt, update_of_ne here] at found
      exact leads.acked p j found

end Bookkeeping

theorem appendAnswer_moves (rel : Refines m c a) {answer : AppendAnswer}
    (member : answer.leader ∈ m.members) (given : answer ∈ c.appendAnswers) :
    ∃ a', Moves m c a answer.leader (appendAnswerEffect answer (c.server answer.leader)) a' := by
  have node := rel.elections.node answer.leader member
  have stands := rel.node answer.leader member
  unfold appendAnswerEffect
  split_ifs with newer stale
  · rw [node.running.becomeFollower newer]
    exact observe_moves rel member rfl rfl rfl rfl rfl
  · exact ⟨a, .stay rel stands (fun role => ⟨role, rfl⟩) rfl rfl (by simp) (by simp [Uncontested])
      (by simp) (by simp)⟩
  obtain ⟨role, now⟩ := not_or.mp stale
  have leading : (c.core answer.leader).role = .leader := not_not.mp role
  have now : (c.core answer.leader).hard.currentTerm = answer.term := not_not.mp now
  have leads := stands.leads leading
  by_cases success : answer.reply.success = true
  · have acked : a.acks answer.peer (c.core answer.leader).hard.currentTerm answer.lastSent := by
      rw [now]
      exact rel.acked answer given success
    have within := (rel.invariant.acked acked).2.2
    rw [← leads.log] at within
    have booked := (stands.nextAt answer.peer leading
      ⟨Nat.succ_pos _, Nat.succ_le_succ within⟩).matchAt answer.peer leading acked
    have node' : Member m answer.leader (matchAt answer.peer answer.lastSent
      (nextAt answer.peer (answer.lastSent + 1) (c.core answer.leader))) := node.congr rfl
    obtain ⟨a', own, hist, stands', commits⟩ := advance_own node' member booked leading
    have same := (advanceCommitIndex_side
      (matchAt answer.peer answer.lastSent (nextAt answer.peer (answer.lastSent + 1)
        (c.core answer.leader)))).ballot
    have hard := congrArg Ballot.hard same
    simp only [onAppendEntriesReply_success leading success]
    refine ⟨a', own.moves rel member leading (fun led => ?_) stands'
      ((congrArg Ballot.role same).trans leading) rfl rfl rfl _ rfl fun moved => ?_⟩
    · rw [hist]
      exact rel.storable (by rwa [Led, ← own.lead])
    · exact (congrArg HardState.currentTerm hard) ▸ commits moved
  · obtain ⟨next, first, last, same⟩ : ∃ next, _ ∧ _ ∧
        (c.core answer.leader).onAppendEntriesReply answer.peer answer.lastSent answer.reply = _ :=
      onAppendEntriesReply_backs leading (Bool.eq_false_iff.mpr success)
    have range : 1 ≤ next ∧ next ≤ (a.log answer.leader).length + 1 := by
      refine ⟨first, ?_⟩
      rcases found : (c.core answer.leader).nextIndex answer.peer with _ | j <;>
        rw [found] at last
      · simp only [Option.getD_none] at last
        omega
      · have := leads.next answer.peer j found
        simp only [Option.getD_some] at last
        omega
    simp only [same]
    exact ⟨a, .stay rel (stands.nextAt answer.peer leading range) (fun role => ⟨role, rfl⟩) rfl rfl
      (by simp) (commitEvent_uncontested _ _) (by simp [commitEvent]) (by simp [commitEvent])⟩

end WalKv
