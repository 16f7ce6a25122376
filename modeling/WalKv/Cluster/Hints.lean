import WalKv.Cluster.Reads

/-! Whom a node takes for the leader. As long as requests are built by leaders only, a node that knows
a leader of its term knows the one that won it, and it takes itself for the leader just while it is.
A client that is redirected is never sent back to the node that it asked. -/
namespace WalKv
open RaftCore

variable {m : Membership} {c c' : Cluster} {n : Nat} {e : Effect} {action : Action}

structure Hints (m : Membership) (c : Cluster) : Prop where
  elections : Elections m c
  named : ∀ n ∈ m.members, ∀ l, (c.core n).leaderId = some l →
    Won c.trace l (c.core n).hard.currentTerm
  own : ∀ n ∈ m.members, (c.core n).role = .leader ↔ (c.core n).leaderId = some n
  sent : ∀ call ∈ c.appendCalls, call.dst ≠ call.args.leaderId ∧
    Won c.trace call.args.leaderId call.args.term

/-- What an action can do to whom its node takes for the leader. -/
inductive Hinted (c : Cluster) (n : Nat) (e : Effect) : Prop where
  | forgets (nobody : e.server.core.leaderId = none) (role : e.server.core.role ≠ .leader)
  | keeps (same : e.server.core.leaderId = (c.core n).leaderId)
      (role : e.server.core.role = (c.core n).role)
      (term : e.server.core.hard.currentTerm = (c.core n).hard.currentTerm)
  | wins (own : e.server.core.leaderId = some n) (role : e.server.core.role = .leader)
      (won : Won e.events n e.server.core.hard.currentTerm)
  | follows {call : AppendCall} (sent : call ∈ c.appendCalls) (here : call.dst = n)
      (named : e.server.core.leaderId = some call.args.leaderId)
      (role : e.server.core.role = .follower)
      (term : e.server.core.hard.currentTerm = call.args.term)

theorem RaftCore.LogSide.leadership {W : Type} {core core' : RaftCore W} (side : LogSide core core') :
    core'.leaderId = core.leaderId ∧ core'.role = core.role ∧
      core'.hard.currentTerm = core.hard.currentTerm := by
  unfold LogSide at side
  rw [side]
  exact ⟨rfl, rfl, rfl⟩

theorem Hinted.side (side : LogSide (c.core n) e.server.core) : Hinted c n e := by
  obtain ⟨named, role, term⟩ := side.leadership
  exact .keeps named role term

theorem Hinted.observe {term : Nat} (same : e.server.core = (c.core n).observe term none) :
    Hinted c n e := by
  unfold RaftCore.observe at same
  split_ifs at same with newer
  · apply Hinted.forgets
    all_goals simp [same]
  · exact .keeps (by rw [same]) (by rw [same]) (by rw [same])

theorem requestVote_hinted (node : Member m n (c.core n)) (call : VoteCall) (clock : Clock) :
    Hinted c n (requestVoteEffect call clock (c.server n)) := by
  simp only [requestVoteEffect, node.running.handleRequestVote]
  split_ifs with stale granted
  · exact .keeps rfl rfl rfl
  · have seen : Hinted c n { server := { c.server n with
        core := (c.core n).observe call.args.term none } } := .observe rfl
    cases seen with
    | forgets nobody role => exact .forgets nobody role
    | keeps same role term => exact .keeps same role term
    | wins _ _ won =>
      obtain ⟨_, elected, _⟩ := won
      simp at elected
    | follows sent here named role term => exact .follows sent here named role term
  · exact .observe rfl

theorem appendAnswer_hinted (node : Member m n (c.core n)) (answer : AppendAnswer) :
    Hinted c n (appendAnswerEffect answer (c.server n)) := by
  unfold appendAnswerEffect
  split_ifs with newer stale
  · rw [node.running.becomeFollower newer]
    exact .observe rfl
  · exact .keeps rfl rfl rfl
  · exact .side (onAppendEntriesReply_side _ _ _ _)

theorem Hints.act (hints : Hints m c) (member : n ∈ m.members) (rules : VoteRules m c n e)
    (hinted : Hinted c n e) (built : ∀ call ∈ e.appendCalls,
      call.dst ≠ call.args.leaderId ∧ Won c.trace call.args.leaderId call.args.term) :
    Hints m (c.apply n e) := by
  have acting : ((∀ l, e.server.core.leaderId = some l →
      Won (c.trace ++ e.events) l e.server.core.hard.currentTerm)) ∧
      (e.server.core.role = .leader ↔ e.server.core.leaderId = some n) := by
    cases hinted with
    | forgets nobody role => simp [nobody, role]
    | keeps same role term =>
      rw [same, role, term]
      exact ⟨fun l named => (hints.named n member l named).mono _, hints.own n member⟩
    | wins own role won =>
      rw [own]
      refine ⟨?_, by simp [role]⟩
      rintro _ ⟨⟩
      obtain ⟨core, elected, rest⟩ := won
      exact ⟨core, List.mem_append_right _ elected, rest⟩
    | @follows call sent here named role term =>
      obtain ⟨other, won⟩ := hints.sent call sent
      rw [named, term]
      refine ⟨?_, ?_⟩
      · rintro _ ⟨⟩
        exact won.mono _
      · have away : ¬ call.args.leaderId = n := fun same => other (here.trans same.symm)
        simp [role, away]
  refine ⟨hints.elections.act member rules, ?_, ?_, ?_⟩
  · intro v voter l named
    by_cases here : v = n
    · subst here
      rw [c.apply_core_self] at named ⊢
      exact acting.1 l named
    · rw [c.apply_core_other e here] at named ⊢
      exact (hints.named v voter l named).mono _
  · intro v voter
    by_cases here : v = n
    · subst here
      rw [c.apply_core_self]
      exact acting.2
    · rw [c.apply_core_other e here]
      exact hints.own v voter
  · intro call sent
    rcases List.mem_append.mp sent with old | new
    · exact (hints.sent call old).imp_right fun won => won.mono _
    · exact (built call new).imp_right fun won => won.mono _

section Runs
variable [Bincode]

theorem win_hinted (node : Member m n (c.core n)) : Hinted c n (winEffect (c.server n)) := by
  obtain ⟨named, role, term⟩ := (appendAsLeader_side .noop (c.core n).becomeLeader).leadership
  have own : (c.core n).becomeLeader.leaderId = some n := congrArg some node.id
  exact .wins (named.trans own) role
    ⟨(c.core n).becomeLeader, by simp [winEffect], node.id, term.symm⟩

theorem voteAnswer_hinted (node : Member m n (c.core n)) (answer : VoteAnswer) (campaign : Campaign) :
    Hinted c n (voteAnswerEffect answer campaign (c.server n)) := by
  unfold voteAnswerEffect
  split_ifs with newer stale granted enough
  · rw [node.running.becomeFollower newer]
    exact .observe rfl
  · exact .keeps rfl rfl rfl
  · exact win_hinted node
  · exact .keeps rfl rfl rfl
  · exact .keeps rfl rfl rfl

theorem propose_hinted (command : Command) : Hinted c n (proposeEffect command (c.server n)) := by
  have side := appendAsLeader_side command (c.core n)
  unfold proposeEffect
  split
  · rename_i ran
    rw [ran] at side
    exact .side side
  · rename_i ran
    rw [ran] at side
    exact .side side

theorem appendEntries_hinted {call : AppendCall} (node : Member m call.dst (c.core call.dst))
    (sent : call ∈ c.appendCalls) (clock : Clock) :
    Hinted c call.dst (appendEntriesEffect call clock (c.server call.dst)) := by
  simp only [appendEntriesEffect, node.running.handleAppendEntries]
  split_ifs with stale
  · exact .keeps rfl rfl rfl
  · obtain ⟨named, role, term⟩ := (matchAndStore_side call.args
      (((c.core call.dst).recognised call.args).armed clock)).leadership
    have named' : ((c.core call.dst).recognised call.args).leaderId = some call.args.leaderId := by
      unfold RaftCore.recognised RaftCore.observe
      split_ifs <;> rfl
    have role' := recognised_role (c.core call.dst) call.args
    have term' := recognised_term (Nat.le_of_not_lt stale)
    rcases ran : matchAndStore call.args (((c.core call.dst).recognised call.args).armed clock)
      with ⟨stop | reply, core⟩
    all_goals
      rw [ran] at named role term
      exact .follows sent rfl (named.trans named') (role.trans role') (term.trans term')

theorem restart_hinted {clock : Clock} {file : HardFile} {snapshot : SnapshotMeta} {log : FlatLog}
    (restarted : restart m clock n file snapshot log = some e) : Hinted c n e := by
  obtain ⟨core, restored, rfl⟩ := restart_ok restarted
  obtain ⟨records, entries, _, _, _, rfl⟩ := restore_ok restored
  exact .forgets rfl (by simp [Server.fresh, armed, assemble])

theorem effect_hinted (inv : Elections m c) (member : action.node ∈ m.members)
    (acted : effect m c action = some e) : Hinted c action.node e := by
  have node := inv.node action.node member
  cases effect_acts acted with
  | timeout n clock =>
    have node : Member m n (c.core n) := node
    simp only [timeoutEffect, node.running.becomeCandidate]
    exact .forgets rfl (by simp [campaigning])
  | @requestVote call clock => exact requestVote_hinted node call clock
  | @voteAnswer answer campaign => exact voteAnswer_hinted node answer campaign
  | propose n command => exact propose_hinted command
  | appendEntries clock sent => exact appendEntries_hinted node sent clock
  | @appendAnswer answer => exact appendAnswer_hinted node answer
  | take n => exact .side (takeLoop_side _ _)
  | build | publish | acknowledge | deadlineExceeded => exact .keeps rfl rfl rfl
  | compact => exact .side (compact_side _ _)
  | crash restarted => exact restart_hinted restarted
  | crashUncompacted _ _ restarted => exact restart_hinted restarted
  | interrupt _ restarted => exact restart_hinted restarted

/-- Only building adds requests, and a leader builds them for others and in its own name. -/
theorem effect_built (inv : Elections m c) (member : action.node ∈ m.members)
    (leading : LeaderBuilds c action) (acted : effect m c action = some e) :
    ∀ call ∈ e.appendCalls, call.dst ≠ call.args.leaderId ∧
      Won c.trace call.args.leaderId call.args.term := by
  cases effect_acts acted with
  | @build n peer listed =>
    have member : n ∈ m.members := member
    have node := inv.node n member
    intro call built
    cases List.mem_singleton.mp built
    have id : (c.core n).id = n := node.id
    refine ⟨?_, ?_⟩
    · simpa only [buildAppendEntries, id] using (node.peer member listed).2
    · have won : Won c.trace n (c.core n).hard.currentTerm := inv.leads n member leading
      simpa only [buildAppendEntries, id] using won
  | timeout =>
    unfold timeoutEffect
    split <;> simp
  | requestVote =>
    unfold requestVoteEffect
    split <;> simp
  | voteAnswer =>
    unfold voteAnswerEffect
    split_ifs <;> simp [winEffect]
  | propose =>
    unfold proposeEffect
    split <;> simp
  | appendEntries =>
    unfold appendEntriesEffect
    split <;> simp
  | appendAnswer =>
    unfold appendAnswerEffect
    split_ifs <;> simp
  | take | publish | acknowledge | deadlineExceeded | compact => simp [takeEffect]
  | crash restarted | crashUncompacted _ _ restarted | interrupt _ restarted =>
    obtain ⟨core, _, rfl⟩ := restart_ok restarted
    simp

theorem hints_step (hints : Hints m c) (leading : LeaderBuilds c action)
    (stepped : step m c action = some c') : Hints m c' := by
  obtain ⟨member, e, acted, rfl⟩ := step_ok stepped
  have inv := hints.elections
  exact hints.act member (effect_rules inv member acted) (effect_hinted inv member acted)
    (effect_built inv member leading acted)

theorem hints_initial (start : Initial m c) : Hints m c := by
  have fresh (n : Nat) (member : n ∈ m.members) :
      (c.core n).leaderId = none ∧ (c.core n).role = .follower := by
    obtain ⟨clock, core, restored, server⟩ := start.server n member
    obtain ⟨records, entries, _, _, _, rfl⟩ := restore_ok restored
    rw [Cluster.core, server]
    exact ⟨rfl, rfl⟩
  refine ⟨elections_initial start, ?_, ?_, by simp [start.appendCalls]⟩
  · intro n member l named
    rw [(fresh n member).1] at named
    cases named
  · intro n member
    simp [fresh n member]

/-- A node takes itself for the leader just while it is, and if it knows a leader then that is the
member that won its term, as it is for all others that have reached the term and know one. -/
theorem hints_name_leader (run : Reachable m LeaderBuilds c) (member : n ∈ m.members) :
    ((c.core n).role = .leader ↔ (c.core n).leaderId = some n) ∧
    ∀ l, (c.core n).leaderId = some l →
      l ∈ m.members ∧ Won c.trace l (c.core n).hard.currentTerm ∧
      ∀ k ∈ m.members, (c.core k).hard.currentTerm = (c.core n).hard.currentTerm →
        ∀ l', (c.core k).leaderId = some l' → l' = l := by
  obtain ⟨start, initial, run⟩ := run
  have hints : Hints m c := run.invariant (hints_initial initial) fun hints leading stepped =>
    hints_step hints leading stepped
  refine ⟨hints.own n member, ?_⟩
  intro l named
  have won := hints.named n member l named
  obtain ⟨core, elected, rfl, term⟩ := won
  refine ⟨(hints.elections.won elected).1, ⟨core, elected, rfl, term⟩, ?_⟩
  intro k other same l' named'
  obtain ⟨core', elected', rfl, term'⟩ := hints.named k other l' named'
  exact hints.elections.unique elected' elected (term'.trans (same.trans term.symm))

end Runs

/-- Node 2 has heard from node 1 and names it; node 3 has heard from nobody. -/
theorem hints_name_leader_replicated : ∃ c, Reachable trio LeaderBuilds c ∧
    (c.core 2).leaderId = some 1 ∧ (c.core 3).leaderId = none ∧
    Won c.trace 1 (c.core 2).hard.currentTerm := by
  have ran : ((Transition.execute (step trio) LeaderBuilds (boot trio ⟨0, 0⟩) replicated).any
      fun c => decide ((c.core 2).leaderId = some 1 ∧ (c.core 3).leaderId = none)) = true := by
    decide +kernel
  obtain ⟨c, reached, shown⟩ := boot_shows trio ⟨0, 0⟩ trio_timed ran
  obtain ⟨named, unknown⟩ := of_decide_eq_true shown
  have known := hints_name_leader reached (by decide : 2 ∈ trio.members)
  exact ⟨c, reached, named, unknown, (known.2 1 named).2.1⟩

/-- What a request tells its client about the leader. -/
def Get.Directed (trace : List Event) (get : Get) : Prop :=
  match get.state with
  | .asked => True
  | .passed leaderHint => leaderHint = get.node
  | .answered response => response.leaderHint = get.node
  | .redirected response => response.result = none ∧ (response.leaderHint = 0 ∨
      response.leaderHint ≠ get.node ∧ ∃ term, Won trace response.leaderHint term)

theorem Get.Directed.mono {trace : List Event} {get : Get} (directed : get.Directed trace)
    (more : List Event) : get.Directed (trace ++ more) := by
  unfold Get.Directed at directed ⊢
  split at directed
  · trivial
  · exact directed
  · exact directed
  · exact directed.imp_right fun hint => hint.imp_right fun ⟨other, term, won⟩ =>
      ⟨other, term, won.mono more⟩

namespace Service

/-- Requests to other nodes are built by leaders only. -/
def LeadersBuild (s : Service) : Action → Prop
  | .act action => LeaderBuilds s.cluster action
  | _ => True

instance (s : Service) : (action : Action) → Decidable (LeadersBuild s action)
  | .act action => inferInstanceAs (Decidable (LeaderBuilds s.cluster action))
  | .apply .. | .snapshot .. | .compact _ | .publish .. | .get .. | .check _ | .read _ =>
    isTrue trivial

structure Directs (m : Membership) (s : Service) : Prop where
  hints : Hints m s.cluster
  gets : ∀ get ∈ s.gets, get.node ∈ m.members ∧ get.Directed s.trace

section Directing
variable [Bincode] {m : Membership} {s s' : Service} {action : Action}

theorem Directs.perform (directs : Directs m s) {action : WalKv.Action} {c : Cluster}
    (stepped : WalKv.step m s.cluster action = some c) (leading : LeaderBuilds s.cluster action)
    (cluster : s'.cluster = c) (gets : ∀ get ∈ s'.gets, get ∈ s.gets) : Directs m s' := by
  have hints := hints_step directs.hints leading stepped
  obtain ⟨_, e, _, rfl⟩ := step_ok stepped
  refine ⟨by rwa [cluster], ?_⟩
  intro get inside
  have before := directs.gets get (gets get inside)
  rw [Service.trace, cluster]
  exact before.imp_right fun directed => directed.mono e.events

omit [Bincode] in
theorem Directs.move (directs : Directs m s) {i : Nat} {get : Get} {state : GetState}
    (found : s.gets[i]? = some get) (directed : ({ get with state } : Get).Directed s.trace) :
    Directs m (s.move i get state) := by
  refine ⟨directs.hints, ?_⟩
  intro other inside
  rcases List.mem_or_eq_of_mem_set inside with old | rfl
  · exact directs.gets other old
  · exact ⟨(directs.gets get (List.mem_of_getElem? found)).1, directed⟩

omit [Bincode] in
/-- The first section of a request knows whether its node leads, and who else does. -/
theorem Directs.check (directs : Directs m s) {get : Get} (inside : get ∈ s.gets) :
    ((s.core get.node).isLeader = true → (s.core get.node).leaderId.getD 0 = get.node) ∧
    (¬ (s.core get.node).isLeader = true → (s.core get.node).leaderId.getD 0 = 0 ∨
      (s.core get.node).leaderId.getD 0 ≠ get.node ∧
        ∃ term, Won s.trace ((s.core get.node).leaderId.getD 0) term) := by
  have member := (directs.gets get inside).1
  have own : (s.core get.node).role = .leader ↔ (s.core get.node).leaderId = some get.node :=
    directs.hints.own get.node member
  have named : ∀ l, (s.core get.node).leaderId = some l → Won s.trace l _ :=
    directs.hints.named get.node member
  simp only [isLeader, decide_eq_true_eq]
  constructor
  · intro leads
    rw [own.mp leads]
    rfl
  · intro follows
    cases known : (s.core get.node).leaderId with
    | none => exact .inl rfl
    | some l =>
      refine .inr ⟨?_, _, named l known⟩
      rintro rfl
      exact follows (own.mpr known)

theorem Directs.step (directs : Directs m s) (leading : LeadersBuild s action)
    (stepped : Service.step m s action = some s') : Directs m s' := by
  cases step_does stepped with
  | act acted => exact directs.perform acted leading rfl fun get kept => kept
  | restart acted =>
    exact directs.perform acted leading rfl fun get kept => (List.mem_filter.mp kept).1
  | apply | snapshot => exact ⟨directs.hints, directs.gets⟩
  | compact acted | publish _ acted =>
    exact directs.perform acted trivial rfl fun get kept => kept
  | get member key =>
    refine ⟨directs.hints, ?_⟩
    intro get inside
    rcases List.mem_append.mp inside with old | new
    · exact directs.gets get old
    · cases List.mem_singleton.mp new
      exact ⟨member, trivial⟩
  | passed found leads =>
    exact directs.move found ((directs.check (List.mem_of_getElem? found)).1 leads)
  | redirected found follows =>
    exact directs.move found ⟨rfl, (directs.check (List.mem_of_getElem? found)).2 follows⟩
  | @read i leaderHint get found serving =>
    have directed := (directs.gets get (List.mem_of_getElem? found)).2
    simp only [Get.Directed, serving] at directed
    refine directs.move found ?_
    subst directed
    show (GetResponse.ofValue get.node _).leaderHint = get.node
    cases (s.store get.node).get get.key <;> rfl

/-- An answer names the node that gives it. A redirect carries no value and names nobody, or a member
that has won a term and is not the node that was asked. -/
theorem redirects_lead_away (run : Reachable m LeadersBuild s) {get : Get} (inside : get ∈ s.gets)
    {response : GetResponse} :
    (get.state = .answered response → response.leaderHint = get.node) ∧
    (get.state = .redirected response → response.result = none ∧ (response.leaderHint = 0 ∨
      response.leaderHint ∈ m.members ∧ response.leaderHint ≠ get.node ∧
        ∃ term, Won s.trace response.leaderHint term)) := by
  obtain ⟨start, initial, run⟩ := run
  have directs : Directs m s := run.invariant
    ⟨hints_initial initial.cluster, by simp [initial.gets]⟩
    fun directs leading stepped => directs.step leading stepped
  have directed := (directs.gets get inside).2
  constructor
  · intro answered
    simpa only [Get.Directed, answered] using directed
  · intro redirected
    simp only [Get.Directed, redirected] at directed
    obtain ⟨result, hint⟩ := directed
    refine ⟨result, hint.imp_right ?_⟩
    rintro ⟨other, term, won⟩
    obtain ⟨core, elected, id, now⟩ := won
    have member := (directs.hints.elections.won elected).1
    rw [id] at member
    exact ⟨member, other, term, core, elected, id, now⟩

end Directing

/-- Node 3 follows node 1 and sends a client there. -/
theorem redirects_lead_away_follower : ∃ s get, Reachable trio LeadersBuild s ∧ get ∈ s.gets ∧
    get.node = 3 ∧ get.state = .redirected ⟨false, [], 1⟩ ∧ ∃ term, Won s.trace 1 term := by
  have ran : ((Transition.execute (step trio) LeadersBuild booted
      (written ++ [.get 3 [1], .check 0])).any fun s => s.gets.any fun get =>
        decide (get.node = 3 ∧ get.state = .redirected ⟨false, [], 1⟩)) = true := by
    decide +kernel
  obtain ⟨s, reached, shown⟩ := booted_shows ran
  obtain ⟨get, inside, shown⟩ := List.any_eq_true.mp shown
  obtain ⟨node, redirected⟩ := of_decide_eq_true shown
  obtain ⟨_, hint⟩ := (redirects_lead_away reached inside).2 redirected
  rcases hint with nobody | ⟨_, _, won⟩
  · cases nobody
  · exact ⟨s, get, reached, inside, node, redirected, won⟩

end Service
end WalKv
