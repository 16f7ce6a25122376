import WalKv.Cluster.Refinement

/-! Actions that keep every log as it is: adopting a term, starting a campaign,
answering a vote request. In the protocol they raise terms and record votes. -/
namespace WalKv
open RaftCore Function
open Consensus (Led Known Extends Invariant lastTerm UpToDate Step Steps)

variable [Bincode] {m : Membership} {c : Cluster} {a a' : Spec} {n : Nat} {e : Effect}

/-- The part of a core that says which log it stands for and how much of it is
committed and handed out. -/
structure SameLedger (core core' : Core) : Prop where
  log : core'.log = core.log
  entries : core'.entries = core.entries
  snapshot : core'.snapshot = core.snapshot
  commitIndex : core'.commitIndex = core.commitIndex
  lastApplied : core'.lastApplied = core.lastApplied

/-- Neither a new term nor a new role costs knowledge of the log; a leader that
stays leader keeps its term and its bookkeeping. -/
theorem Stands.carry {core core' : Core} (stands : Stands a n core)
    (same : SameLedger core core') (grown : Extends a a') (hist : a'.hist = a.hist)
    (log : a'.log n = a.log n) (commit : a'.commit n = a.commit n)
    (term : a'.term n = core'.hard.currentTerm)
    (leading : core'.role = .leader → core.role = .leader ∧
      core'.hard.currentTerm = core.hard.currentTerm ∧ core'.nextIndex = core.nextIndex ∧
      core'.matchIndex = core.matchIndex) : Stands a' n core' where
  sound := by
    rw [log]
    exact stands.sound.congr same.snapshot same.entries same.log
  term := term
  commit := by rw [commit, stands.commit, same.commitIndex]
  compacted := by
    rw [same.snapshot, same.lastApplied]
    exact stands.compacted
  applied := by
    rw [same.commitIndex, same.lastApplied]
    exact stands.applied
  leads role := by
    obtain ⟨before, now, next, matches_⟩ := leading role
    have leads := stands.leads before
    refine ⟨now ▸ grown.led leads.led, ?_, ?_, ?_⟩
    · rw [log, now, hist]
      exact leads.log
    · rw [log, next]
      exact leads.next
    · rw [matches_, now]
      exact fun p i found => (leads.acked p i found).imp_right grown.acks

/-- Moves that elect nobody and append nothing. -/
theorem Moves.keep (rel : Refines m c a) (steps : Steps m.quorums a a') (lead : a'.lead = a.lead)
    (hist : a'.hist = a.hist)
    (others : ∀ v, v ≠ n → a'.term v = a.term v ∧ a'.log v = a.log v ∧ a'.commit v = a.commit v)
    (node : Stands a' n e.server.core)
    (candidate : e.server.core.role = .candidate →
      (c.core n).hard.currentTerm < e.server.core.hard.currentTerm ∨
        (c.core n).role = .candidate ∧
          (c.core n).hard.currentTerm = e.server.core.hard.currentTerm ∧ a'.log n = a.log n)
    (calls : e.voteCalls = []) (requests : e.appendCalls = [])
    (answers : ∀ answer ∈ e.appendAnswers, answer.reply.success = true →
      a'.acks answer.peer answer.term answer.lastSent)
    (uncontested : Uncontested e.events)
    (committed : ∀ core, .committed core ∉ e.events)
    (applied : ∀ {k i x}, .applied k i x ∈ e.events →
      ∃ t j, a'.commits t j ∧ 1 ≤ i ∧ i ≤ j ∧ (a'.hist t)[i - 1]? = some x) :
    Moves m c a n e a' where
  steps := steps
  others := others
  hist _ _ _ _ := by rw [hist]
  node := node
  storable led := by
    rw [hist]
    exact rel.storable (by rwa [Led, ← lead])
  candidate := candidate
  asked call sent := by simp [calls] at sent
  voted vote := absurd rfl ((uncontested _ vote).1 _ _ _)
  sent call sent := by simp [requests] at sent
  acked := answers
  elected won := absurd rfl ((uncontested _ won).2 _)
  wonBy led := Or.inl (by rwa [Led, ← lead])
  committed event := absurd event (committed _)
  applied := applied
  shown core := ⟨fun won => absurd rfl ((uncontested _ won).2 _),
    fun event => absurd event (committed core)⟩

theorem Moves.stay (rel : Refines m c a) (node : Stands a n e.server.core)
    (candidate : e.server.core.role = .candidate → (c.core n).role = .candidate ∧
      (c.core n).hard.currentTerm = e.server.core.hard.currentTerm)
    (calls : e.voteCalls = []) (requests : e.appendCalls = [])
    (answers : ∀ answer ∈ e.appendAnswers, answer.reply.success = false)
    (uncontested : Uncontested e.events) (committed : ∀ core, .committed core ∉ e.events)
    (applied : ∀ k i x, .applied k i x ∉ e.events) : Moves m c a n e a :=
  .keep rel .refl rfl rfl (fun _ _ => ⟨rfl, rfl, rfl⟩) node
    (fun role => Or.inr ⟨(candidate role).1, (candidate role).2, rfl⟩) calls requests
    (fun answer given success => by simp [answers answer given] at success) uncontested
    committed (fun event => absurd event (applied _ _ _))

theorem Moves.down (rel : Refines m c a) (member : n ∈ m.members)
    (same : SameLedger (c.core n) e.server.core) (role : e.server.core.role = .follower)
    (later : (c.core n).hard.currentTerm ≤ e.server.core.hard.currentTerm)
    (calls : e.voteCalls = []) (requests : e.appendCalls = [])
    (answers : ∀ answer ∈ e.appendAnswers, answer.reply.success = false)
    (events : e.events = []) :
    Moves m c a n e (Consensus.raise a n e.server.core.hard.currentTerm) := by
  have stands := rel.node n member
  have raised : Step m.quorums a (Consensus.raise a n e.server.core.hard.currentTerm) :=
    .raise n _ (by rw [stands.term]; exact later)
  refine .keep rel (.single raised) rfl rfl ?_ ?_ (by simp [role]) calls requests ?_
    (by simp [events, Uncontested]) (by simp [events]) (by simp [events])
  · intro v other
    exact ⟨by simp [Consensus.raise, other], rfl, rfl⟩
  · exact stands.carry same (Consensus.step_extends raised) rfl rfl rfl (by simp [Consensus.raise])
      (by simp [role])
  · intro answer given success
    simp [answers answer given] at success

omit [Bincode] in
theorem SameLedger.refl (core : Core) : SameLedger core core := ⟨rfl, rfl, rfl, rfl, rfl⟩

omit [Bincode] in
theorem observe_ledger (core : Core) (term : Nat) (leader : Option Nat) :
    SameLedger core (core.observe term leader) := by
  unfold observe
  split_ifs
  · exact ⟨rfl, rfl, rfl, rfl, rfl⟩
  · exact .refl core

theorem observe_moves (rel : Refines m c a) (member : n ∈ m.members) {term : Nat}
    {leader : Option Nat} (core : e.server.core = (c.core n).observe term leader)
    (calls : e.voteCalls = []) (requests : e.appendCalls = []) (answers : e.appendAnswers = [])
    (events : e.events = []) : ∃ a', Moves m c a n e a' := by
  by_cases newer : (c.core n).hard.currentTerm < term
  · refine ⟨_, .down rel member (core ▸ observe_ledger _ _ _) ?_ ?_ calls requests
      (by simp [answers]) events⟩
    · simp [core, observe, newer]
    · rw [core, observe_term]
      exact Nat.le_max_left _ _
  · have core : e.server.core = c.core n := by simpa [observe, newer] using core
    refine ⟨a, .stay rel (core ▸ rel.node n member) ?_ calls requests (by simp [answers])
      (by simp [events, Uncontested]) (by simp [events]) (by simp [events])⟩
    rw [core]
    exact fun role => ⟨role, rfl⟩

/-- An action by which node `n` gives its vote in the term it is then in. -/
theorem Moves.vote (rel : Refines m c a) (member : n ∈ m.members)
    (same : SameLedger (c.core n) e.server.core)
    (later : (c.core n).hard.currentTerm ≤ e.server.core.hard.currentTerm)
    (leading : e.server.core.role = .leader → (c.core n).role = .leader ∧
      e.server.core.hard.currentTerm = (c.core n).hard.currentTerm ∧
      e.server.core.nextIndex = (c.core n).nextIndex ∧
      e.server.core.matchIndex = (c.core n).matchIndex)
    (candidate : e.server.core.role = .candidate →
      (c.core n).hard.currentTerm < e.server.core.hard.currentTerm ∨
        (c.core n).role = .candidate ∧
          (c.core n).hard.currentTerm = e.server.core.hard.currentTerm)
    (asked : ∀ call ∈ e.voteCalls, call.args.lastLogTerm = lastTerm (a.log n) ∧
      call.args.lastLogIndex = (a.log n).length)
    {x : Nat} (events : e.events = [.voted n e.server.core.hard.currentTerm x])
    (upToDate : ((c.apply n e).core x).role = .candidate →
      ((c.apply n e).core x).hard.currentTerm = e.server.core.hard.currentTerm →
      UpToDate (a.log n) (a.log x))
    (requests : e.appendCalls = []) (answers : e.appendAnswers = []) :
    ∃ a', Moves m c a n e a' := by
  have stands := rel.node n member
  obtain ⟨a', steps, lead, hist, log, commit, others, now, vote⟩ :=
    Consensus.enter_and_vote m.quorums a (stands.term ▸ later)
  have led {t : Nat} (led : Led a' t) : Led a t := by rwa [Led, ← lead]
  exact ⟨a',
    { steps := steps
      others := fun v other => ⟨others v other, by rw [log], by rw [commit]⟩
      hist := fun _ _ _ _ => by rw [hist]
      node := stands.carry same (Consensus.steps_extends steps) hist (by rw [log]) (by rw [commit])
        now leading
      storable := fun isLed => by rw [hist]; exact rel.storable (led isLed)
      candidate := fun role => (candidate role).imp_right fun ⟨before, term⟩ =>
        ⟨before, term, by rw [log]⟩
      asked := by rw [log]; exact asked
      voted := by
        intro v u y event
        rw [events, List.mem_singleton, Event.voted.injEq] at event
        obtain ⟨rfl, rfl, rfl⟩ := event
        exact vote.imp_right fun given => ⟨_, given, by rw [log]; exact upToDate⟩
      sent := by simp [requests]
      acked := by simp [answers]
      elected := by simp [events]
      wonBy := fun isLed => Or.inl (led isLed)
      committed := by simp [events]
      applied := by simp [events]
      shown := by simp [events] }⟩

theorem timeout_moves (rel : Refines m c a) (member : n ∈ m.members) (clock : Clock) :
    ∃ a', Moves m c a n (timeoutEffect clock (c.server n)) a' := by
  have node := rel.elections.node n member
  have stands := rel.node n member
  have id : (c.core n).id = n := node.id
  simp only [timeoutEffect, node.running.becomeCandidate]
  refine Moves.vote rel member ⟨rfl, rfl, rfl, rfl, rfl⟩ (Nat.le_succ _) (by simp [campaigning])
    (fun _ => Or.inl (Nat.lt_succ_self _)) ?_ (x := n) ?_ (fun _ _ => Or.inr ⟨rfl, le_rfl⟩) rfl rfl
  · intro call sent
    obtain ⟨peer, _, rfl⟩ := List.mem_map.mp sent
    exact ⟨stands.sound.holds.lastLogTerm, stands.sound.holds.lastLogIndex⟩
  · simp [campaigning, armed, saveHard, id]

omit [Bincode] in
theorem upToDate_of_logOk {core : Core} {l b : List LogEntry} {args : RequestVoteArgs}
    (holds : core.Holds l) (ok : core.logOk args = true) (term : args.lastLogTerm = lastTerm b)
    (index : args.lastLogIndex = b.length) : UpToDate l b := by
  simp only [logOk, holds.lastLogTerm, holds.lastLogIndex, term, index, Bool.or_eq_true,
    Bool.and_eq_true, decide_eq_true_eq] at ok
  exact ok

theorem requestVote_moves (rel : Refines m c a) {call : VoteCall} (sent : call ∈ c.voteCalls)
    (clock : Clock) :
    ∃ a', Moves m c a call.dst (requestVoteEffect call clock (c.server call.dst)) a' := by
  obtain ⟨src, member, own, reached⟩ := rel.elections.asked call sent
  have node := rel.elections.node call.dst member
  have stands := rel.node call.dst member
  simp only [requestVoteEffect, node.running.handleRequestVote]
  split_ifs with stale granted
  · exact ⟨a, .stay rel stands (fun role => ⟨role, rfl⟩) rfl rfl (by simp) (by simp [Uncontested])
      (by simp) (by simp)⟩
  · have ledger := observe_ledger (c.core call.dst) call.args.term none
    have now : ((c.core call.dst).observe call.args.term none).hard.currentTerm =
        call.args.term := by
      rw [observe_term]
      exact Nat.max_eq_right (Nat.le_of_not_lt stale)
    have unmoved {role : Role} (now : ((c.core call.dst).observe call.args.term none).role = role)
        (other : role ≠ .follower) :
        (c.core call.dst).observe call.args.term none = c.core call.dst :=
      (observe_cases call.args.term none (c.core call.dst)).resolve_left
        fun adopted => other (now.symm.trans adopted.2)
    refine Moves.vote rel member
      ⟨ledger.log, ledger.entries, ledger.snapshot, ledger.commitIndex, ledger.lastApplied⟩
      ?_ (fun leader => ?_) (fun candidate => ?_) (by simp) (x := call.src) ?_ (fun role term => ?_)
      rfl rfl
    · exact (Nat.le_of_not_lt stale).trans now.ge
    · have same := unmoved leader (by decide)
      simp only [voteFor, armed, saveHard, same] at leader ⊢
      exact ⟨leader, trivial, trivial, trivial⟩
    · have same := unmoved candidate (by decide)
      simp only [voteFor, armed, saveHard, same] at candidate ⊢
      exact Or.inr ⟨candidate, trivial⟩
    · simp [voteFor, armed, saveHard, now, own]
    · have campaigning : (c.core call.src).role = .candidate ∧
          call.args.term = (c.core call.src).hard.currentTerm := by
        by_cases self : call.src = call.dst
        · rw [self, c.apply_core_self] at role
          have same := unmoved role (by decide)
          rw [same] at now
          simp only [voteFor, armed, saveHard, same] at role
          exact self ▸ ⟨role, now.symm⟩
        · rw [c.apply_core_other _ self] at role term
          exact ⟨role, (term.trans now).symm⟩
      obtain ⟨lastTerm, lastIndex⟩ := rel.asked call sent campaigning.1 campaigning.2
      exact upToDate_of_logOk (stands.sound.holds.congr ledger.snapshot ledger.entries)
        (Bool.and_eq_true_iff.mp granted).1 lastTerm lastIndex
  · exact observe_moves rel member rfl rfl rfl rfl (by simp)

end WalKv
