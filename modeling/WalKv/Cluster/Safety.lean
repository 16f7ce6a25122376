import WalKv.Cluster.Simulation

/-! What the refinement says about runs without snapshots: nodes hand the same
entries to their stores, later leaders hold what earlier leaders committed, and
logs that share an entry's index and term share everything before it. -/
namespace WalKv
open RaftCore
open Consensus (Led Known Rooted)

/-- Runs in which only leaders build requests, nodes crash between calls, and no
snapshot is taken. -/
def Plain (c : Cluster) (action : Action) : Prop :=
  LeaderBuilds c action ∧ CleanCrash action ∧ NoSnapshot action

instance (c : Cluster) (action : Action) : Decidable (Plain c action) :=
  inferInstanceAs (Decidable (_ ∧ _ ∧ _))

section Runs
variable [Bincode] {m : Membership} {c c' : Cluster} {a : Spec} {n k : Nat} {action : Action}

/-- No node has a snapshot, now or in anything the run has shown. -/
structure Uncompacted (m : Membership) (c : Cluster) : Prop where
  node : ∀ n ∈ m.members, (c.core n).snapshot.lastIncludedIndex = 0
  elected : ∀ {core}, .elected core ∈ c.trace → core.snapshot.lastIncludedIndex = 0
  committed : ∀ {core}, .committed core ∈ c.trace → core.snapshot.lastIncludedIndex = 0

theorem uncompacted_initial (start : Initial m c) : Uncompacted m c where
  node n member := by
    obtain ⟨clock, core, restored, server⟩ := start.server n member
    obtain ⟨records, entries, _, _, _, rfl⟩ := restore_ok restored
    rw [Cluster.core, server]
    rfl
  elected won := by simp [start.trace] at won
  committed event := by simp [start.trace] at event

theorem restart_snapshot {e : Effect} {clock : Clock} {file : HardFile} {snapshot : SnapshotMeta}
    {log : FlatLog} (restarted : restart m clock n file snapshot log = some e) :
    e.server.core.snapshot = snapshot := by
  obtain ⟨core, restored, rfl⟩ := restart_ok restarted
  obtain ⟨records, entries, _, _, _, rfl⟩ := restore_ok restored
  rfl

theorem effect_snapshot {e : Effect} (rel : Refines m c a) (member : action.node ∈ m.members)
    (plain : Plain c action) (acted : effect m c action = some e) :
    e.server.core.snapshot = (c.core action.node).snapshot := by
  by_cases crashed : ∃ n clock, action = .crash n clock
  · obtain ⟨n, clock, rfl⟩ := crashed
    exact restart_snapshot acted
  · exact (effect_progress rel member plain.2.1 plain.2.2 acted
      fun n clock same => crashed ⟨n, clock, same⟩).snapshot

theorem Uncompacted.act {a' : Spec} {e : Effect} (flat : Uncompacted m c) (member : n ∈ m.members)
    (same : e.server.core.snapshot = (c.core n).snapshot) (moves : Moves m c a n e a') :
    Uncompacted m (c.apply n e) where
  node v voter := by
    by_cases acting : v = n
    · subst acting
      rw [c.apply_core_self, same]
      exact flat.node v member
    · rw [c.apply_core_other e acting]
      exact flat.node v voter
  elected won := by
    rcases List.mem_append.mp won with old | new
    · exact flat.elected old
    · rw [(moves.shown _).1 new]
      exact flat.node n member
  committed event := by
    rcases List.mem_append.mp event with old | new
    · exact flat.committed old
    · rw [(moves.shown _).2 new, same]
      exact flat.node n member

theorem served_of_uncompacted (rel : Refines m c a) (flat : Uncompacted m c)
    (member : action.node ∈ m.members) (leading : LeaderBuilds c action) : Served c action := by
  cases action with
  | build n peer =>
    have zero : (c.server n).core.snapshot.lastIncludedIndex = 0 := flat.node n member
    simp only [Served, zero]
    rcases found : (c.server n).core.nextIndex peer with _ | i
    · exact Nat.succ_pos _
    · exact (((rel.node n member).leads leading).next peer i found).1
  | _ => trivial

theorem plain_step [LawfulBincode] (rel : Refines m c a) (flat : Uncompacted m c)
    (plain : Plain c action) (stepped : step m c action = some c') :
    ∃ a', Refines m c' a' ∧ Uncompacted m c' := by
  obtain ⟨member, e, acted, rfl⟩ := step_ok stepped
  have served := served_of_uncompacted rel flat member plain.1
  obtain ⟨a', moves⟩ := effect_moves rel member plain.1 served plain.2.1 acted
  exact ⟨a', rel.act member (effect_rules rel.elections member acted) moves,
    flat.act member (effect_snapshot rel member plain acted) moves⟩

theorem plain_refines [LawfulBincode] (run : Reachable m Plain c) :
    ∃ a, Refines m c a ∧ Uncompacted m c := by
  obtain ⟨start, initial, run⟩ := run
  exact run.invariant (P := fun c => ∃ a, Refines m c a ∧ Uncompacted m c)
    ⟨_, refines_initial initial, uncompacted_initial initial⟩
    fun ⟨_, rel, flat⟩ plain stepped => plain_step rel flat plain stepped

theorem Refines.applied_index (rel : Refines m c a) {i : Nat} {x : LogEntry}
    (event : .applied n i x ∈ c.trace) : x.index = i := by
  obtain ⟨t, k, commits, first, _, found⟩ := rel.applied event
  have index := (rel.storable (rel.invariant.committed commits).1).indexed (i - 1) x found
  omega

theorem Refines.applied_agree (rel : Refines m c a) {i : Nat} {x y : LogEntry}
    (left : .applied n i x ∈ c.trace) (right : .applied k i y ∈ c.trace) : x = y := by
  obtain ⟨t, k, commits, first, last, found⟩ := rel.applied left
  obtain ⟨u, j, commits', first', last', found'⟩ := rel.applied right
  have agree := Consensus.commits_agree (i := i - 1) rel.invariant commits commits' (by omega)
    (by omega)
  rw [found, found'] at agree
  exact Option.some.inj agree

theorem Refines.order (rel : Refines m c a) (member : n ∈ m.members) :
    (c.core n).lastApplied ≤ (c.core n).commitIndex ∧
      (c.core n).commitIndex ≤ (c.core n).lastLogIndex := by
  have stands := rel.node n member
  refine ⟨stands.applied, ?_⟩
  rw [stands.sound.holds.lastLogIndex, ← stands.commit]
  exact (rel.known n).within rel.invariant

theorem commit_step (rel : Refines m c a) (plain : Plain c action)
    (running : ∀ clock, action ≠ .crash n clock) (stepped : step m c action = some c') :
    (c.core n).commitIndex ≤ (c'.core n).commitIndex := by
  obtain ⟨member, e, acted, rfl⟩ := step_ok stepped
  by_cases acting : n = action.node
  · subst acting
    rw [c.apply_core_self]
    refine (effect_progress rel member plain.2.1 plain.2.2 acted fun v clock same => ?_).commit
    subst same
    exact running clock rfl
  · rw [c.apply_core_other e acting]

theorem Uncompacted.entries (flat : Uncompacted m c) (rel : Refines m c a)
    (member : n ∈ m.members) : (c.core n).entries = a.log n := by
  rw [(rel.node n member).sound.holds.entries, flat.node n member, List.drop_zero]

theorem Uncompacted.entryAt (flat : Uncompacted m c) (rel : Refines m c a)
    (member : n ∈ m.members) (i : Nat) :
    (c.core n).entryAt i = if i = 0 then none else (a.log n)[i - 1]? := by
  have zero := flat.node n member
  split_ifs with first
  · rw [first, RaftCore.entryAt, if_pos (by rw [baseIndex]; omega)]
  · exact (rel.node n member).sound.holds.entryAt (by omega)

theorem Refines.sorted (rel : Refines m c a) (n : Nat) :
    (a.log n).Pairwise fun x y => x.term ≤ y.term := by
  refine List.pairwise_iff_getElem.mpr fun i j low high below => ?_
  have split : (a.log n).take j ++ [(a.log n)[j]] <+: a.log n := by
    rw [List.take_append_getElem]
    exact List.take_prefix _ _
  obtain ⟨led, inside⟩ := rel.invariant.rooted n _ _ split
  refine rel.invariant.stamps_hist led _ (inside.mem (List.mem_append_left _ ?_))
  exact List.mem_take_iff_getElem.mpr ⟨i, by omega, rfl⟩

end Runs

/-- State machine safety: whatever two nodes hand to their stores for an index
is one entry, which carries that index; on each node the applied, the committed
and the last index are in order; and between restarts a commit index never falls. -/
theorem state_machine_safety [Bincode] [LawfulBincode] {m : Membership} {c : Cluster}
    (run : Reachable m Plain c) :
    (∀ n k i x y, .applied n i x ∈ c.trace → .applied k i y ∈ c.trace → x = y ∧ x.index = i) ∧
    (∀ n ∈ m.members, (c.server n).core.lastApplied ≤ (c.server n).core.commitIndex ∧
      (c.server n).core.commitIndex ≤ (c.server n).core.lastLogIndex) ∧
    ∀ n c', Transition.Reaches (step m)
        (fun c action => Plain c action ∧ ∀ clock, action ≠ .crash n clock) c c' →
      (c.server n).core.commitIndex ≤ (c'.server n).core.commitIndex := by
  obtain ⟨a, rel, flat⟩ := plain_refines run
  refine ⟨fun n k i x y left right => ⟨rel.applied_agree left right, rel.applied_index left⟩,
    fun n member => rel.order member, fun n c' later => ?_⟩
  refine later.monotone (P := fun c => ∃ a, Refines m c a ∧ Uncompacted m c)
    (fun c => (c.core n).commitIndex) ⟨a, rel, flat⟩ ?_
  rintro before after action ⟨a, rel, flat⟩ ⟨plain, running⟩ stepped
  exact ⟨plain_step rel flat plain stepped, commit_step rel plain running stepped⟩

/-- Node 1 wins the first term, and its first entry is replicated to node 2 and
handed out on both. -/
def replicated : List Action :=
  [.timeout 1 ⟨0, 0⟩, .requestVote ⟨1, 2, ⟨1, 1, 0, 0⟩⟩ ⟨0, 0⟩, .voteAnswer ⟨2, 1, 1, ⟨1, true⟩⟩,
    .build 1 2, .appendEntries ⟨1, 2, ⟨1, 1, 0, 0, [⟨1, 1, .noop⟩], 0⟩⟩ ⟨0, 0⟩,
    .appendAnswer ⟨2, 1, 1, 1, ⟨1, true, 0⟩⟩, .take 1,
    .build 1 2, .appendEntries ⟨1, 2, ⟨1, 1, 1, 1, [], 1⟩⟩ ⟨0, 0⟩, .take 2]

/-- An entry was handed out on a node for an index. -/
def Event.hands (node index : Nat) : Event → Bool
  | .applied n i _ => n = node && i = index
  | _ => false

theorem Event.of_hands {node index : Nat} {trace : List Event}
    (shown : trace.any (Event.hands node index) = true) :
    ∃ entry, .applied node index entry ∈ trace := by
  obtain ⟨event, inside, hands⟩ := List.any_eq_true.mp shown
  cases event with
  | applied n i entry =>
    simp only [Event.hands, Bool.and_eq_true, decide_eq_true_eq] at hands
    obtain ⟨rfl, rfl⟩ := hands
    exact ⟨entry, inside⟩
  | _ => cases hands

theorem state_machine_safety_replicated : ∃ c x y, Reachable trio Plain c ∧
    .applied 1 1 x ∈ c.trace ∧ .applied 2 1 y ∈ c.trace ∧ x = y ∧ x.index = 1 ∧
    (c.server 2).core.commitIndex ≤ (c.server 2).core.lastLogIndex := by
  have ran : ((Transition.execute (step trio) Plain (boot trio ⟨0, 0⟩) replicated).any
      fun c => c.trace.any (Event.hands 1 1) && c.trace.any (Event.hands 2 1)) = true := by
    decide +kernel
  obtain ⟨c, reached, shown⟩ := boot_shows trio ⟨0, 0⟩ trio_timed ran
  rw [Bool.and_eq_true] at shown
  obtain ⟨x, left⟩ := Event.of_hands shown.1
  obtain ⟨y, right⟩ := Event.of_hands shown.2
  obtain ⟨agree, order, _⟩ := state_machine_safety reached
  obtain ⟨same, index⟩ := agree 1 2 1 x y left right
  exact ⟨c, x, y, reached, left, right, same, index, (order 2 (by decide)).2⟩

/-- Leader completeness: what a leader held when it moved its commit index is
what every leader of a later term holds when it is elected. -/
theorem leader_completeness [Bincode] [LawfulBincode] {m : Membership} {c : Cluster}
    (run : Reachable m Plain c) {leader winner : Core}
    (committed : .committed leader ∈ c.trace) (elected : .elected winner ∈ c.trace)
    (later : leader.hard.currentTerm < winner.hard.currentTerm) {i : Nat} (positive : 1 ≤ i)
    (within : i ≤ leader.commitIndex) :
    ∃ entry, leader.entryAt i = some entry ∧ winner.entryAt i = some entry := by
  obtain ⟨a, rel, flat⟩ := plain_refines run
  obtain ⟨commits, l, holds, reached, inside⟩ := rel.committed committed
  obtain ⟨b, lead, holds'⟩ := rel.elected elected
  have own : l.take leader.commitIndex <+: b := by
    rw [← Consensus.prefix_take inside reached]
    exact Consensus.completeness rel.invariant commits _ b later lead
  have found : l[i - 1]? = some l[i - 1] := List.getElem?_eq_getElem (by omega)
  refine ⟨l[i - 1], ?_, ?_⟩
  · rw [holds.entryAt (by rw [flat.committed committed]; omega), found]
  · obtain ⟨rest, same⟩ := own
    rw [holds'.entryAt (by rw [flat.elected elected]; omega), ← same,
      List.getElem?_append_left (by simp only [List.length_take]; omega), List.getElem?_take,
      if_pos (by omega), found]

/-- A leader of a term moved its commit index to `index`. -/
def Event.commitsTo (term index : Nat) : Event → Bool
  | .committed core => core.hard.currentTerm = term && core.commitIndex = index
  | _ => false

/-- A node won a term. -/
def Event.wins (term : Nat) : Event → Bool
  | .elected core => core.hard.currentTerm = term
  | _ => false

/-- Node 1 commits an entry with node 2, which then wins the second term with
the vote of node 3. -/
theorem leader_completeness_successor : ∃ c leader winner, Reachable trio Plain c ∧
    .committed leader ∈ c.trace ∧ .elected winner ∈ c.trace ∧
    leader.hard.currentTerm = 1 ∧ winner.hard.currentTerm = 2 ∧ leader.commitIndex = 1 ∧
    ∃ entry, leader.entryAt 1 = some entry ∧ winner.entryAt 1 = some entry := by
  have ran : ((Transition.execute (step trio) Plain (boot trio ⟨0, 0⟩) (replicated ++
      [.timeout 2 ⟨0, 0⟩, .requestVote ⟨2, 3, ⟨2, 2, 1, 1⟩⟩ ⟨0, 0⟩,
        .voteAnswer ⟨3, 2, 2, ⟨2, true⟩⟩])).any
      fun c => c.trace.any (Event.commitsTo 1 1) && c.trace.any (Event.wins 2)) = true := by
    decide +kernel
  obtain ⟨c, reached, shown⟩ := boot_shows trio ⟨0, 0⟩ trio_timed ran
  simp only [Bool.and_eq_true, List.any_eq_true] at shown
  obtain ⟨⟨first, committed, moved⟩, ⟨second, elected, won⟩⟩ := shown
  cases first with
  | committed leader =>
    cases second with
    | elected winner =>
      simp only [Event.commitsTo, Event.wins, Bool.and_eq_true, decide_eq_true_eq] at moved won
      exact ⟨c, leader, winner, reached, committed, elected, moved.1, won, moved.2,
        leader_completeness reached committed elected (by omega) le_rfl moved.2.ge⟩
    | _ => cases won
  | _ => cases moved

/-- Log matching: two logs that hold entries of one index and one term hold the
same entries up to there; terms never fall along a log and never exceed the
node's own. -/
theorem log_matching [Bincode] [LawfulBincode] {m : Membership} {c : Cluster} {n k : Nat}
    (run : Reachable m Plain c) (first : n ∈ m.members) (second : k ∈ m.members) :
    (∀ x ∈ (c.server n).core.entries, ∀ y ∈ (c.server k).core.entries, x.index = y.index →
      x.term = y.term → x = y ∧ ∀ i ≤ x.index,
        (c.server n).core.entryAt i = (c.server k).core.entryAt i) ∧
    ((c.server n).core.entries.Pairwise fun x y => x.term ≤ y.term) ∧
    ∀ x ∈ (c.server n).core.entries, x.term ≤ (c.server n).core.hard.currentTerm := by
  obtain ⟨a, rel, flat⟩ := plain_refines run
  have stands := rel.node n first
  have own : (c.server n).core.entries = a.log n := flat.entries rel first
  have other : (c.server k).core.entries = a.log k := flat.entries rel second
  rw [own, other]
  refine ⟨fun x left y right index term => ?_, rel.sorted n, fun x inside => ?_⟩
  · obtain ⟨i, bound, rfl⟩ := List.getElem_of_mem left
    obtain ⟨j, bound', rfl⟩ := List.getElem_of_mem right
    have here : (a.log n)[i].index = i + 1 :=
      stands.sound.holds.indexed i _ (List.getElem?_eq_getElem bound)
    have there : (a.log k)[j].index = j + 1 :=
      (rel.node k second).sound.holds.indexed j _ (List.getElem?_eq_getElem bound')
    obtain rfl : i = j := by omega
    have same := (rel.invariant.rooted n).matching_logs (rel.invariant.rooted k) i _ _
      (List.getElem?_eq_getElem bound) (List.getElem?_eq_getElem bound') term
    have equal {p : Nat} (below : p < i + 1) : (a.log n)[p]? = (a.log k)[p]? := by
      rw [← List.getElem?_take_of_lt below, same, List.getElem?_take_of_lt below]
    refine ⟨?_, fun p within => ?_⟩
    · simpa [bound, bound'] using equal (Nat.lt_succ_self i)
    · have left := flat.entryAt rel first p
      have right := flat.entryAt rel second p
      simp only [Cluster.core] at left right
      rw [left, right]
      split_ifs
      · rfl
      · exact equal (by omega)
  · have bounded := rel.invariant.bounded n x inside
    rwa [stands.term] at bounded

theorem log_matching_replicated : ∃ c, Reachable trio Plain c ∧
    (c.server 1).core.entries = [⟨1, 1, .noop⟩] ∧ (c.server 2).core.entries = [⟨1, 1, .noop⟩] ∧
    ∀ i ≤ 1, (c.server 1).core.entryAt i = (c.server 2).core.entryAt i := by
  have ran : ((Transition.execute (step trio) Plain (boot trio ⟨0, 0⟩) replicated).any
      fun c => decide ((c.server 1).core.entries = [⟨1, 1, .noop⟩] ∧
        (c.server 2).core.entries = [⟨1, 1, .noop⟩])) = true := by
    decide +kernel
  obtain ⟨c, reached, shown⟩ := boot_shows trio ⟨0, 0⟩ trio_timed ran
  obtain ⟨left, right⟩ := of_decide_eq_true shown
  refine ⟨c, reached, left, right, ?_⟩
  exact ((log_matching reached (by decide : 1 ∈ trio.members) (by decide : 2 ∈ trio.members)).1
    ⟨1, 1, .noop⟩ (by simp [left]) ⟨1, 1, .noop⟩ (by simp [right]) rfl rfl).2

end WalKv
