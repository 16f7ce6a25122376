import WalKv.Cluster.Pacing

/-! When a leader's lease excludes newer leaders. A peer that acknowledged a heartbeat has
armed its timer; it stays out of newer elections until the timer runs out, if nodes vote only
then, and the lease ends before that, if rounds are short enough. -/
namespace WalKv
open RaftCore

variable {m : Membership} {c c' : Cluster} {n v now now' term handled : Nat} {e : Effect}

/-- How timers and votes move in a cluster while time passes. -/
structure Drifts (m : Membership) (c : Cluster) (now : Nat) (c' : Cluster) (now' : Nat) : Prop where
  time : now ≤ now'
  term : ∀ v, (c.core v).hard.currentTerm ≤ (c'.core v).hard.currentTerm
  deadline : ∀ v, (c'.core v).electionDeadline = (c.core v).electionDeadline ∨
    now + m.wait v ≤ (c'.core v).electionDeadline
  /-- Only a node whose timer has run out votes. -/
  voted : ∀ {v u x}, .voted v u x ∈ c'.trace → .voted v u x ∈ c.trace ∨
    (c.core v).electionDeadline ≤ now

theorem Drifts.idle (time : now ≤ now') : Drifts m c now c now' :=
  ⟨time, fun _ => le_rfl, fun _ => Or.inl rfl, Or.inl⟩

/-- Node `v` took a heartbeat of the given term. Its timer runs until the wait is over, and
until then it votes in no newer term. -/
structure Promised (m : Membership) (c : Cluster) (now v term handled : Nat) : Prop where
  past : handled ≤ now
  deadline : handled + m.wait v ≤ (c.core v).electionDeadline
  voted : (∀ u x, .voted v u x ∈ c.trace → u ≤ term) ∨ handled + m.wait v ≤ now

theorem Promised.drifts (promised : Promised m c now v term handled)
    (drifts : Drifts m c now c' now') : Promised m c' now' v term handled where
  past := promised.past.trans drifts.time
  deadline := by
    rcases drifts.deadline v with same | later
    · exact same ▸ promised.deadline
    · exact (Nat.add_le_add_right promised.past _).trans later
  voted := by
    rcases promised.voted with bound | past
    · rcases Nat.lt_or_ge now (c.core v).electionDeadline with runs | expired
      · refine Or.inl fun u x vote => ?_
        rcases drifts.voted vote with old | late
        · exact bound u x old
        · omega
      · exact Or.inr ((promised.deadline.trans expired).trans drifts.time)
    · exact Or.inr (past.trans drifts.time)

/-- The same for a term that node `n` has reached. -/
def Backs (m : Membership) (c : Cluster) (now n v handled : Nat) : Prop :=
  ∃ term ≤ (c.core n).hard.currentTerm, Promised m c now v term handled

theorem Backs.drifts (backs : Backs m c now n v handled) (drifts : Drifts m c now c' now') :
    Backs m c' now' n v handled := by
  obtain ⟨term, reached, promised⟩ := backs
  exact ⟨term, reached.trans (drifts.term n), promised.drifts drifts⟩

/-- Node `v` keeps newer leaders than `n` away until the lease ends. -/
def Covers (m : Membership) (c : Cluster) (now n expiry v : Nat) : Prop :=
  v = n ∨ ∃ handled, Backs m c now n v handled ∧ expiry ≤ handled + m.wait v

structure Leased (m : Membership) (c : Cluster) (now : Nat) : Prop where
  elections : Elections m c
  timeout : ∀ n ∈ m.members, (c.core n).electionTimeout = (m.config n).electionTimeout
  lease : ∀ n ∈ m.members, ∀ expiry, (c.core n).lease.expiry = some expiry →
    Consensus.Majority m.members (Covers m c now n expiry)

theorem majority_drifts {expiry : Nat} (majority : Consensus.Majority m.members (Covers m c now n expiry))
    (drifts : Drifts m c now c' now') :
    Consensus.Majority m.members (Covers m c' now' n expiry) := by
  refine majority.mono fun v _ covers => ?_
  rcases covers with own | ⟨handled, backs, long⟩
  · exact Or.inl own
  · exact Or.inr ⟨handled, backs.drifts drifts, long⟩

namespace Leased

theorem exclusive (inv : Leased m c now) {k : Nat} (reader : n ∈ m.members) (other : k ∈ m.members)
    (serves : (c.core n).canServeLocalRead now = true) (leads : (c.core k).role = .leader) :
    (c.core k).hard.currentTerm ≤ (c.core n).hard.currentTerm := by
  rw [canServeLocalRead, Bool.and_eq_true] at serves
  obtain ⟨expiry, held, valid⟩ : ∃ expiry, (c.core n).lease.expiry = some expiry ∧ now < expiry := by
    have valid := serves.2
    unfold LeaderLease.isValid at valid
    rcases held : (c.core n).lease.expiry with _ | expiry <;> rw [held] at valid
    · cases valid
    · exact ⟨expiry, rfl, of_decide_eq_true valid⟩
  obtain ⟨core, elected, rfl, term⟩ := inv.elections.leads k other leads
  obtain ⟨v, _, voted, covers⟩ := (inv.elections.won elected).2.meet (inv.lease n reader expiry held)
  rw [term] at voted
  rcases covers with rfl | ⟨handled, ⟨bound, reached, promised⟩, long⟩
  · rcases (inv.elections.recorded voted).2.2.1 with earlier | ⟨same, _⟩ <;> omega
  · rcases promised.voted with bounded | past
    · exact (bounded _ _ voted).trans reached
    · omega

theorem later (inv : Leased m c now) (time : now ≤ now') : Leased m c now' :=
  { inv with lease := fun n member expiry held =>
      majority_drifts (inv.lease n member expiry held) (.idle time) }

/-- One action of node `n`, given what it does to the node's timer and lease. -/
theorem act (inv : Leased m c now) (member : n ∈ m.members) (rules : VoteRules m c n e)
    (timeout : e.server.core.electionTimeout = (c.core n).electionTimeout)
    (deadline : e.server.core.electionDeadline = (c.core n).electionDeadline ∨
      now + m.wait n ≤ e.server.core.electionDeadline)
    (lease : ∀ expiry, e.server.core.lease.expiry = some expiry →
      Consensus.Majority m.members (Covers m c now n expiry))
    (patient : ∀ v u x, .voted v u x ∈ e.events → (c.core v).electionDeadline ≤ now) :
    Leased m (c.apply n e) now ∧ Drifts m c now (c.apply n e) now := by
  have drifts : Drifts m c now (c.apply n e) now := by
    refine ⟨le_rfl, fun v => (Elections.term_act rules v).term, fun v => ?_, fun vote => ?_⟩
    · by_cases acting : v = n
      · subst acting
        simpa using deadline
      · simp [Cluster.apply_core_other, acting]
    · exact (List.mem_append.mp vote).imp_right (patient _ _ _)
  refine ⟨⟨inv.elections.act member rules, fun v voter => ?_, fun v voter expiry held => ?_⟩, drifts⟩
  · by_cases acting : v = n
    · subst acting
      simpa using timeout.trans (inv.timeout v voter)
    · simpa [Cluster.apply_core_other, acting] using inv.timeout v voter
  · refine majority_drifts ?_ drifts
    by_cases acting : v = n
    · subst acting
      exact lease expiry (by rwa [c.apply_core_self] at held)
    · exact inv.lease v voter expiry (by rwa [c.apply_core_other e acting] at held)

theorem step [Bincode] (inv : Leased m c now) {action : Action}
    (stamped : Timed.stamped now action = true)
    (patient : votes c action = true → (c.core action.node).electionDeadline ≤ now)
    (stepped : WalKv.step m c action = some c') : Leased m c' now ∧ Drifts m c now c' now := by
  obtain ⟨member, e, acted, rfl⟩ := step_ok stepped
  have rules := effect_rules inv.elections member acted
  have paced := effect_paced inv.elections member (inv.timeout _ member) stamped acted
  have patient (v u x : Nat) (vote : .voted v u x ∈ e.events) : (c.core v).electionDeadline ≤ now := by
    obtain ⟨rfl, _⟩ := rules.voted vote
    exact patient ((effect_contested acted).1 _ u x vote)
  refine inv.act member rules paced.timeout paced.deadline (fun expiry held => ?_) patient
  rcases paced.lease with same | none
  · exact inv.lease _ member expiry (same ▸ held)
  · simp [none] at held

end Leased

theorem renewLease_expiry {core : Core} {expiry : Nat}
    (held : (core.renewLease now).lease.expiry = some expiry) :
    core.lease.expiry = some expiry ∨ expiry = now + core.lease.duration := by
  unfold renewLease at held
  split_ifs at held
  · exact Or.inr (Option.some.inj held).symm
  · exact Or.inl held

theorem Leased.renew {s : Timed} (inv : Leased m s.cluster s.now) (member : n ∈ m.members)
    (covered : Consensus.Majority m.members
      (Covers m s.cluster s.now n (s.now + (s.core n).lease.duration))) :
    Leased m (s.renew n).cluster s.now ∧ Drifts m s.cluster s.now (s.renew n).cluster s.now := by
  have kept : ((s.core n).renewLease s.now).ballot = (s.core n).ballot ∧
      ((s.core n).renewLease s.now).electionDeadline = (s.core n).electionDeadline := by
    unfold renewLease
    split_ifs <;> exact ⟨rfl, rfl⟩
  have rules := VoteRules.unchanged
    (e := { server := { s.cluster.server n with core := (s.core n).renewLease s.now } })
    inv.elections member kept.1 (Or.inr rfl) rfl rfl (by simp [Uncontested])
  refine inv.act member rules (congrArg Ballot.electionTimeout kept.1) (Or.inl kept.2)
    (fun expiry held => ?_) (by simp)
  rcases renewLease_expiry held with old | rfl
  · exact inv.lease n member expiry old
  · exact covered

theorem handleAppendEntries_taken [Bincode] {core core' : Core} {clock : Clock}
    {args : AppendEntriesArgs} {reply : AppendEntriesReply} (running : core.Running)
    (ran : handleAppendEntries clock args core = (.ok reply, core')) (success : reply.success = true) :
    core'.hard.currentTerm = args.term ∧
      core'.electionDeadline = (core.recognised args).nextDeadline clock := by
  rw [running.handleAppendEntries] at ran
  split_ifs at ran with stale
  · cases ran
    cases success
  · have side : LogSide ((core.recognised args).armed clock) core' := by
      have side := matchAndStore_side args ((core.recognised args).armed clock)
      rwa [ran] at side
    rw [side]
    exact ⟨recognised_term (Nat.le_of_not_lt stale), rfl⟩

theorem appendEntries_promised [Bincode] {call : AppendCall} {clock : Clock} {core : Core}
    {reply : AppendEntriesReply} (inv : Leased m c clock.now)
    (ran : handleAppendEntries clock call.args (c.core call.dst) = (.ok reply, core))
    (success : reply.success = true)
    (stepped : WalKv.step m c (.appendEntries call clock) = some c') :
    Promised m c' clock.now call.dst call.args.term clock.now := by
  have elections := elections_step inv.elections stepped
  obtain ⟨member, e, acted, rfl⟩ := step_ok stepped
  obtain ⟨term, deadline⟩ := handleAppendEntries_taken (inv.elections.node _ member).running ran success
  have timeout : ((c.core call.dst).recognised call.args).electionTimeout =
      (m.config call.dst).electionTimeout := by
    have paced : Paced m call.dst clock.now _ _ := .recognised (c.core call.dst) call.args
    exact paced.timeout.trans (inv.timeout _ member)
  cases effect_acts acted
  have after : ((c.apply call.dst (appendEntriesEffect call clock (c.server call.dst))).core
      call.dst) = core := by
    simp only [c.apply_core_self, appendEntriesEffect]
    rw [ran]
  refine ⟨le_rfl, ?_, Or.inl fun u x vote => ?_⟩
  · rw [Action.node, after, deadline]
    exact wait_le_nextDeadline timeout clock
  · have bound := (elections.recorded vote).2.2.1
    rw [Action.node, after, term] at bound
    omega

/-- What is known about an exchange of node `n` with peer `p`. -/
def Exchange.Sound (m : Membership) (c : Cluster) (now n p : Nat) : Exchange → Prop
  | .pending | .closed => True
  | .sent call => call.dst = p ∧ call.args.term ≤ (c.core n).hard.currentTerm
  | .answered answer handled => answer.reply.success = true → Backs m c now n p handled
  | .acked handled => Backs m c now n p handled

theorem Exchange.Sound.drifts {p : Nat} {exchange : Exchange} (sound : exchange.Sound m c now n p)
    (drifts : Drifts m c now c' now') : exchange.Sound m c' now' n p := by
  cases exchange with
  | pending | closed => trivial
  | sent call => exact ⟨sound.1, sound.2.trans (drifts.term n)⟩
  | answered answer handled => exact fun success => (sound success).drifts drifts
  | acked handled => exact Backs.drifts sound drifts

structure Round.Sound (m : Membership) (c : Cluster) (now : Nat) (r : Round) : Prop where
  member : r.node ∈ m.members
  distinct : (r.exchanges.map Prod.fst).Nodup
  peers : ∀ p ∈ r.exchanges.map Prod.fst, p ∈ m.members ∧ p ≠ r.node
  exchange : ∀ x ∈ r.exchanges, x.2.Sound m c now r.node x.1

namespace Round.Sound
variable {r : Round}

theorem drifts (sound : r.Sound m c now) (drifts : Drifts m c now c' now') : r.Sound m c' now' :=
  { sound with exchange := fun x inside => (sound.exchange x inside).drifts drifts }

theorem put (sound : r.Sound m c now) {peer : Nat} {next : Exchange}
    (known : next.Sound m c now r.node peer) :
    Round.Sound m c now { r with exchanges := Keyed.put peer next r.exchanges } where
  member := sound.member
  distinct := by simpa [Keyed.put_keys] using sound.distinct
  peers := by simpa [Keyed.put_keys] using sound.peers
  exchange x inside := by
    rcases Keyed.mem_put inside with rfl | old
    · exact known
    · exact sound.exchange x old

/-- The acknowledgements of a round are of distinct nodes, the leader's own apart. -/
theorem covered (sound : r.Sound m c now) {expiry : Nat} (enough : m.members.length / 2 + 1 ≤ r.acks)
    (short : ∀ x ∈ r.exchanges, ∀ handled ∈ x.2.ackedAt, expiry ≤ handled + m.wait x.1) :
    Consensus.Majority m.members (Covers m c now r.node expiry) := by
  have acked : (((r.exchanges.filter (·.2.ackedAt.isSome)).map Prod.fst).toFinset).card =
      r.exchanges.countP (·.2.ackedAt.isSome) := by
    rw [List.toFinset_card_of_nodup, List.length_map, List.countP_eq_length_filter]
    exact sound.distinct.sublist (List.filter_sublist.map _)
  refine ⟨insert r.node ((r.exchanges.filter (·.2.ackedAt.isSome)).map Prod.fst).toFinset, ?_, ?_⟩
  · rw [Finset.card_insert_of_notMem, acked]
    · exact enough.trans (Nat.add_comm 1 _).le
    · simp only [List.mem_toFinset, List.mem_map, List.mem_filter]
      rintro ⟨x, ⟨inside, _⟩, same⟩
      exact (sound.peers _ (List.mem_map_of_mem inside)).2 same
  · intro v given
    rcases Finset.mem_insert.mp given with rfl | given
    · exact ⟨sound.member, Or.inl rfl⟩
    · obtain ⟨⟨p, exchange⟩, chosen, rfl⟩ := List.mem_map.mp (List.mem_toFinset.mp given)
      obtain ⟨inside, acknowledged⟩ := List.mem_filter.mp chosen
      refine ⟨(sound.peers p (List.mem_map_of_mem inside)).1, Or.inr ?_⟩
      cases exchange with
      | acked handled => exact ⟨handled, sound.exchange _ inside, short _ inside handled rfl⟩
      | _ => cases acknowledged

end Round.Sound

namespace Timed
variable {s s' : Timed} {round peer : Nat} {r : Round} {x next : Exchange}

theorem find_some (found : s.find round peer = some (r, x)) :
    s.rounds[round]? = some r ∧ (peer, x) ∈ r.exchanges := by
  simp only [find, Option.bind_eq_some_iff, Option.map_eq_some_iff, Prod.mk.injEq] at found
  obtain ⟨_, here, _, held, rfl, rfl⟩ := found
  exact ⟨here, Keyed.mem_of_lookup held⟩

theorem exchange_sound (rounds : ∀ r ∈ s.rounds, r.Sound m c now)
    (here : s.rounds[round]? = some r) (known : next.Sound m c now r.node peer) :
    ∀ r' ∈ (s.exchange round r peer next).rounds, r'.Sound m c now := by
  intro r' inside
  rcases List.mem_or_eq_of_mem_set inside with old | rfl
  · exact rounds r' old
  · exact (rounds r (List.mem_of_getElem? here)).put known

/-- Nodes vote, for themselves or for another, only after their own timer has run out. -/
def LateVotes (s : Timed) : Action → Prop
  | .act action => votes s.cluster action = true → (s.core action.node).electionDeadline ≤ s.now
  | _ => True

instance (s : Timed) : (action : Action) → Decidable (LateVotes s action)
  | .act action => inferInstanceAs (Decidable (votes s.cluster action = true →
      (s.core action.node).electionDeadline ≤ s.now))
  | .pass .. | .tick .. | .broadcast .. | .build .. | .deliver .. | .lose .. | .fold ..
  | .finish .. => isTrue trivial

/-- A round ends soon enough after its acknowledgements for the lease to end before the
timers that its peers armed can run out. -/
def BriefRounds (m : Membership) (s : Timed) : Action → Prop
  | .finish round => ∀ r ∈ s.rounds[round]?, ∀ x ∈ r.exchanges, ∀ handled ∈ x.2.ackedAt,
      s.now + (s.core r.node).lease.duration ≤ handled + m.wait x.1
  | _ => True

instance (m : Membership) (s : Timed) : (action : Action) → Decidable (BriefRounds m s action)
  | .finish round => inferInstanceAs (Decidable (∀ r ∈ s.rounds[round]?, ∀ x ∈ r.exchanges,
      ∀ handled ∈ x.2.ackedAt, s.now + (s.core r.node).lease.duration ≤ handled + m.wait x.1))
  | .pass .. | .tick .. | .act .. | .broadcast .. | .build .. | .deliver .. | .lose ..
  | .fold .. => isTrue trivial

def Patient (m : Membership) (s : Timed) (action : Action) : Prop :=
  LateVotes s action ∧ BriefRounds m s action

instance (m : Membership) (s : Timed) (action : Action) : Decidable (Patient m s action) :=
  inferInstanceAs (Decidable (_ ∧ _))

structure Exclusive (m : Membership) (s : Timed) : Prop where
  leased : Leased m s.cluster s.now
  rounds : ∀ r ∈ s.rounds, r.Sound m s.cluster s.now

namespace Exclusive

theorem drifts (inv : Exclusive m s) (leased : Leased m c now)
    (drifts : Drifts m s.cluster s.now c now) {rounds : List Round}
    (kept : ∀ r ∈ rounds, r ∈ s.rounds) (due : List (Nat × Duty)) :
    Exclusive m ⟨c, now, due, rounds⟩ :=
  ⟨leased, fun r inside => (inv.rounds r (kept r inside)).drifts drifts⟩

theorem exchange (inv : Exclusive m s) (here : s.rounds[round]? = some r)
    (moved : Leased m c s.now ∧ Drifts m s.cluster s.now c s.now)
    (known : next.Sound m c s.now r.node peer) :
    Exclusive m { s.exchange round r peer next with cluster := c } :=
  ⟨moved.1, exchange_sound (fun r inside => (inv.rounds r inside).drifts moved.2) here known⟩

theorem broadcast (inv : Exclusive m s) (member : n ∈ m.members) (due : List (Nat × Duty)) :
    Exclusive m { s with due, rounds :=
      ⟨n, (s.core n).hard.currentTerm, (s.core n).peers.map (·, .pending)⟩ :: s.rounds } := by
  have node := inv.leased.elections.node n member
  refine ⟨inv.leased, fun r inside => ?_⟩
  rcases List.mem_cons.mp inside with rfl | old
  · refine ⟨member, ?_, fun p listed => node.peer member ?_, fun x inside => ?_⟩
    · simpa [Function.comp_def] using node.peers_nodup member
    · simpa [Function.comp_def] using listed
    · obtain ⟨p, _, rfl⟩ := List.mem_map.mp inside
      trivial
  · exact inv.rounds r old

end Exclusive

variable [Bincode]

theorem perform_ok {action : WalKv.Action} (performed : s.perform m action = some s') :
    ∃ c, WalKv.step m s.cluster action = some c ∧ s' = { s with cluster := c } := by
  simp only [perform, Option.map_eq_some_iff] at performed
  obtain ⟨c, stepped, rfl⟩ := performed
  exact ⟨c, stepped, rfl⟩

theorem act_performs {action : WalKv.Action} (stepped : step m s (.act action) = some s') :
    stamped s.now action = true ∧ ∃ c, WalKv.step m s.cluster action = some c ∧
      s'.cluster = c ∧ s'.now = s.now ∧ ∀ r ∈ s'.rounds, r ∈ s.rounds := by
  simp only [step, Option.ite_none_right_eq_some] at stepped
  refine ⟨stepped.1, ?_⟩
  have stepped := stepped.2
  have plain {t : Timed} (performed : t.perform m action = some s') (cluster : t.cluster = s.cluster)
      (now : t.now = s.now) (rounds : ∀ r ∈ t.rounds, r ∈ s.rounds) :
      ∃ c, WalKv.step m s.cluster action = some c ∧ s'.cluster = c ∧ s'.now = s.now ∧
        ∀ r ∈ s'.rounds, r ∈ s.rounds := by
    obtain ⟨c, acted, rfl⟩ := perform_ok performed
    exact ⟨c, cluster ▸ acted, rfl, now, rounds⟩
  split at stepped
  · cases stepped
  · cases stepped
  · simp only [Option.ite_none_right_eq_some] at stepped
    exact plain stepped.2 rfl rfl fun _ => id
  · exact plain stepped rfl rfl fun _ => List.mem_of_mem_filter
  · exact plain stepped rfl rfl fun _ => List.mem_of_mem_filter
  · exact plain stepped rfl rfl fun _ => List.mem_of_mem_filter
  · exact plain stepped rfl rfl fun _ => id

theorem answer_sound {call : AppendCall} {draw : Nat} (leased : Leased m s.cluster s.now)
    (drifts : Drifts m s.cluster s.now c s.now)
    (sound : (Exchange.sent call).Sound m s.cluster s.now n peer)
    (stepped : WalKv.step m s.cluster (.appendEntries call ⟨s.now, draw⟩) = some c) :
    (s.answer call ⟨s.now, draw⟩).Sound m c s.now n peer := by
  obtain ⟨rfl, reached⟩ := sound
  unfold answer
  rcases ran : handleAppendEntries ⟨s.now, draw⟩ call.args (s.core call.dst) with ⟨stop | reply, core⟩
  · trivial
  · intro success
    have promised : Promised m c s.now call.dst call.args.term s.now :=
      appendEntries_promised leased ran success stepped
    exact ⟨call.args.term, reached.trans (drifts.term n), promised⟩

theorem exclusive_step {action : Action} (inv : Exclusive m s) (patient : Patient m s action)
    (stepped : step m s action = some s') : Exclusive m s' := by
  cases action with
  | pass time =>
    cases Option.some.inj stepped
    have time := Nat.le_add_right s.now time
    exact inv.drifts (inv.leased.later time) (.idle time) (fun _ => id) s.due
  | tick n =>
    simp only [step, Option.ite_none_right_eq_some] at stepped
    obtain ⟨_, ⟨⟩⟩ := stepped
    exact ⟨inv.leased, inv.rounds⟩
  | act action =>
    obtain ⟨stamped, c, acted, rfl, now, kept⟩ := act_performs stepped
    obtain ⟨leased, drifts⟩ := inv.leased.step stamped patient.1 acted
    rw [← now] at leased
    exact inv.drifts leased (now ▸ drifts) kept s'.due
  | broadcast n =>
    simp only [step, Option.ite_none_right_eq_some] at stepped
    obtain ⟨⟨member, _⟩, ⟨⟩⟩ := stepped
    exact inv.broadcast member _
  | build round peer =>
    simp only [step] at stepped
    split at stepped
    · rename_i r found
      obtain ⟨c, acted, rfl⟩ := perform_ok stepped
      have moved := inv.leased.step rfl (by simp [votes]) acted
      exact inv.exchange (find_some found).1 moved ⟨rfl, moved.2.term r.node⟩
    · cases stepped
  | deliver round peer draw =>
    simp only [step] at stepped
    split at stepped
    · rename_i r call found
      obtain ⟨c, acted, rfl⟩ := perform_ok stepped
      obtain ⟨here, inside⟩ := find_some found
      have moved := inv.leased.step (by simp [stamped]) (by simp [votes]) acted
      have sound := (inv.rounds r (List.mem_of_getElem? here)).exchange _ inside
      exact inv.exchange here moved (answer_sound inv.leased moved.2 sound acted)
    · cases stepped
  | lose round peer =>
    simp only [step] at stepped
    split at stepped
    · rename_i r call found
      cases stepped
      exact inv.exchange (find_some found).1 ⟨inv.leased, .idle le_rfl⟩ trivial
    · rename_i r answer handled found
      cases stepped
      exact inv.exchange (find_some found).1 ⟨inv.leased, .idle le_rfl⟩ trivial
    · cases stepped
  | fold round peer =>
    simp only [step] at stepped
    split at stepped
    · rename_i r answer handled found
      obtain ⟨here, inside⟩ := find_some found
      have sound := (inv.rounds r (List.mem_of_getElem? here)).exchange _ inside
      split_ifs at stepped with newer stale success
      · obtain ⟨c, acted, rfl⟩ := perform_ok stepped
        obtain ⟨leased, drifts⟩ := inv.leased.step rfl (by simp [votes]) acted
        exact inv.drifts leased drifts (fun _ => List.mem_of_mem_eraseIdx) s.due
      · cases stepped
        exact inv.drifts inv.leased (.idle le_rfl) (fun _ => List.mem_of_mem_eraseIdx) s.due
      · obtain ⟨c, acted, rfl⟩ := perform_ok stepped
        have moved := inv.leased.step rfl (by simp [votes]) acted
        exact inv.exchange here moved ((sound success).drifts moved.2)
      · obtain ⟨c, acted, rfl⟩ := perform_ok stepped
        exact inv.exchange here (inv.leased.step rfl (by simp [votes]) acted) trivial
    · cases stepped
  | finish round =>
    simp only [step] at stepped
    split at stepped
    · rename_i r here
      have sound := inv.rounds r (List.mem_of_getElem? here)
      have quorum : (s.core r.node).quorum = m.members.length / 2 + 1 := by
        rw [RaftCore.quorum, (inv.leased.elections.node r.node sound.member).clusterSize]
      split_ifs at stepped with complete enough
      · cases stepped
        obtain ⟨leased, drifts⟩ := inv.leased.renew sound.member
          (sound.covered (quorum ▸ enough) (patient.2 r here))
        exact inv.drifts leased drifts (fun _ => List.mem_of_mem_eraseIdx) s.due
      · cases stepped
        exact inv.drifts inv.leased (.idle le_rfl) (fun _ => List.mem_of_mem_eraseIdx) s.due
    · cases stepped

theorem exclusive_initial (start : Initial m s) : Exclusive m s := by
  have fresh (n : Nat) (member : n ∈ m.members) :
      (s.core n).electionTimeout = (m.config n).electionTimeout ∧ (s.core n).lease.expiry = none := by
    obtain ⟨clock, core, restored, server⟩ := start.cluster.server n member
    obtain ⟨records, entries, _, _, _, rfl⟩ := restore_ok restored
    rw [core, server]
    exact ⟨rfl, rfl⟩
  refine ⟨⟨elections_initial start.cluster, fun n member => (fresh n member).1, ?_⟩, ?_⟩
  · intro n member expiry held
    simp [(fresh n member).2] at held
  · simp [start.rounds]

/-- While a leader may answer reads from its own state, no node leads a newer term. -/
theorem lease_exclusive {k : Nat} (run : Reachable m (Patient m) s) (reader : n ∈ m.members)
    (other : k ∈ m.members) (serves : (s.core n).canServeLocalRead s.now = true)
    (leads : (s.core k).role = .leader) :
    (s.core k).hard.currentTerm ≤ (s.core n).hard.currentTerm := by
  obtain ⟨start, initial, run⟩ := run
  have inv := run.invariant (exclusive_initial initial) exclusive_step
  exact inv.leased.exclusive reader other serves leads

theorem trio_shows {guard : Timed → Action → Prop} [∀ s a, Decidable (guard s a)]
    {actions : List Action} {p : Timed → Bool}
    (checked : (Transition.execute (step trio) guard ⟨boot trio ⟨0, 0⟩, 0, [], []⟩ actions).any p =
      true) : ∃ s, Reachable trio guard s ∧ p s = true := by
  obtain ⟨s, run, holds⟩ := Transition.execute_shows checked
  exact ⟨s, ⟨_, ⟨boot_initial trio ⟨0, 0⟩ trio_timed, rfl, rfl⟩, run⟩, holds⟩

end Timed

namespace Timed

/-- Node 1 leads term 1 from 150 ms on. -/
def opening : List Action :=
  [.pass (fromMillis 150), .tick 1, .act (.timeout 1 ⟨fromMillis 150, 0⟩),
    .act (.requestVote ⟨1, 2, ⟨1, 1, 0, 0⟩⟩ ⟨fromMillis 150, 0⟩),
    .act (.voteAnswer ⟨2, 1, 1, ⟨1, true⟩⟩)]

/-- A round of node 1 that both peers take at once, and whose answers take the given time. -/
def heartbeat (delay : Nat) : List Action :=
  [.tick 1, .broadcast 1, .build 0 2, .build 0 3, .deliver 0 2 0, .deliver 0 3 0, .pass delay,
    .fold 0 2, .fold 0 3, .finish 0]

/-- A round of node `n` that only node 2 takes. -/
def halfHeard (n other : Nat) : List Action :=
  [.tick n, .broadcast n, .build 0 2, .build 0 other, .deliver 0 2 0, .lose 0 other, .fold 0 2,
    .finish 0]

/-- Node 3 wins term 2 with the vote of node 2 at 300 ms. -/
def takeover : List Action :=
  [.tick 3, .act (.timeout 3 ⟨fromMillis 300, 0⟩),
    .act (.requestVote ⟨3, 2, ⟨2, 3, 1, 1⟩⟩ ⟨fromMillis 300, 0⟩),
    .act (.voteAnswer ⟨2, 3, 2, ⟨2, true⟩⟩)]

theorem lease_exclusive_takeover : ∃ s, Reachable trio (Patient trio) s ∧
    (s.core 3).canServeLocalRead s.now = true ∧ (s.core 1).role = .leader ∧
    (s.core 1).hard.currentTerm ≤ (s.core 3).hard.currentTerm := by
  have ran : ((Transition.execute (step trio) (Patient trio) ⟨boot trio ⟨0, 0⟩, 0, [], []⟩
      (opening ++ heartbeat (fromMillis 10) ++ [.pass (fromMillis 140)] ++ takeover ++
        halfHeard 3 1)).any fun s => decide ((s.core 3).canServeLocalRead s.now = true ∧
          (s.core 1).role = .leader)) = true := by
    decide +kernel
  obtain ⟨s, reached, shown⟩ := trio_shows ran
  obtain ⟨serves, leads⟩ := of_decide_eq_true shown
  exact ⟨s, reached, serves, leads,
    lease_exclusive reached (by decide) (by decide) serves leads⟩

/-- Node 1 may answer reads although node 3 leads a newer term. -/
def Overlap (s : Timed) : Prop :=
  (s.core 1).canServeLocalRead s.now = true ∧ (s.core 3).role = .leader ∧
    (s.core 1).hard.currentTerm < (s.core 3).hard.currentTerm

instance (s : Timed) : Decidable (Overlap s) := inferInstanceAs (Decidable (_ ∧ _ ∧ _))

/-- Neither condition on its own is enough. Node 2 takes a heartbeat of node 1 at 290 ms and
votes for node 3 at 300 ms; or it votes when its timer runs out, but the answers to the only
heartbeat, taken at 150 ms, reach node 1 at 290 ms. -/
theorem lease_overlap :
    (∃ s, Reachable trio (BriefRounds trio) s ∧ Overlap s) ∧
      ∃ s, Reachable trio LateVotes s ∧ Overlap s := by
  have eager : ((Transition.execute (step trio) (BriefRounds trio) ⟨boot trio ⟨0, 0⟩, 0, [], []⟩
      (opening ++ heartbeat 0 ++ [.pass (fromMillis 140)] ++ halfHeard 1 3 ++
        [.pass (fromMillis 10)] ++ takeover)).any fun s => decide (Overlap s)) = true := by
    decide +kernel
  have slow : ((Transition.execute (step trio) LateVotes ⟨boot trio ⟨0, 0⟩, 0, [], []⟩
      (opening ++ heartbeat (fromMillis 140) ++ [.pass (fromMillis 10)] ++ takeover)).any
        fun s => decide (Overlap s)) = true := by
    decide +kernel
  obtain ⟨s, reached, shown⟩ := trio_shows eager
  obtain ⟨t, reached', shown'⟩ := trio_shows slow
  exact ⟨⟨s, reached, of_decide_eq_true shown⟩, t, reached', of_decide_eq_true shown'⟩

end Timed
end WalKv
