import WalKv.Cluster.Compaction
import WalKv.Cluster.Safety
import WalKv.Consensus.Retention

/-! What a cluster holds on to while its nodes take snapshots and restart. Runs are orderly
throughout: leaders build the requests, for peers that need nothing a snapshot covers, and nodes
crash between calls. Two cores are compared wherever both still have something to compare, the
term of a snapshot's own index included. -/
namespace WalKv
open RaftCore
open Consensus (Known Majority)

namespace RaftCore
variable {W : Type} {first second : RaftCore W} {l l' : List LogEntry} {i k : Nat}

/-- Both cores know the term at an index, and it is the same; above both snapshots both have
the entry, and it is the same. -/
def SameAt (first second : RaftCore W) (i : Nat) : Prop :=
  (∃ term, first.termAt i = some term ∧ second.termAt i = some term) ∧
    (first.snapshot.lastIncludedIndex < i → second.snapshot.lastIncludedIndex < i →
      ∃ entry, first.entryAt i = some entry ∧ second.entryAt i = some entry)

/-- The cores are the same at every index up to `k` that neither snapshot hides. -/
def SameUpTo (k : Nat) (first second : RaftCore W) : Prop :=
  ∀ i ≤ k, first.snapshot.lastIncludedIndex ≤ i → second.snapshot.lastIncludedIndex ≤ i →
    SameAt first second i

theorem Holds.sameUpTo (holds : first.Holds l) (other : second.Holds l')
    (agree : l.take k = l'.take k) (within : k ≤ l.length) (inside : k ≤ l'.length) :
    SameUpTo k first second := by
  intro i below above above'
  have term : Consensus.termAt l i = Consensus.termAt l' i := by
    rw [← Consensus.termAt_take l below, agree, Consensus.termAt_take l' below]
  constructor
  · refine ⟨Consensus.termAt l i, holds.termAt above (by omega), ?_⟩
    rw [term]
    exact other.termAt above' (by omega)
  · intro uncovered uncovered'
    have found : l[i - 1]? = some l[i - 1] := List.getElem?_eq_getElem (by omega)
    refine ⟨l[i - 1], (holds.entryAt uncovered).trans found, ?_⟩
    rw [other.entryAt uncovered', ← List.getElem?_take_of_lt (show i - 1 < k by omega), ← agree,
      List.getElem?_take_of_lt (by omega), found]

theorem Holds.sameUpTo_of_prefix (holds : first.Holds l) (other : second.Holds l')
    (within : k ≤ l.length) (inside : l.take k <+: l') :
    k ≤ second.lastLogIndex ∧ SameUpTo k first second := by
  have length : (l.take k).length = k := by
    rw [List.length_take, Nat.min_eq_left within]
  have longer := inside.length_le
  have agree : l.take k = l'.take k := by
    rw [Consensus.prefix_take inside length.ge, List.take_take, Nat.min_self]
  rw [length] at longer
  exact ⟨other.lastLogIndex ▸ longer, holds.sameUpTo other agree within longer⟩

theorem Holds.of_termAt {term : Nat} (holds : first.Holds l) (found : first.termAt i = some term) :
    i ≤ l.length ∧ Consensus.termAt l i = term := by
  have above : first.snapshot.lastIncludedIndex ≤ i := by
    by_contra below
    rw [Holds.termAt_below first (by omega)] at found
    cases found
  have within : i ≤ l.length := by
    by_contra beyond
    rw [holds.termAt_above (by omega)] at found
    cases found
  rw [holds.termAt above within] at found
  exact ⟨within, Option.some.inj found⟩

end RaftCore

section Runs
variable [Bincode] {m : Membership} {c c' : Cluster} {a a' : Spec} {n k : Nat}

theorem refines_run [LawfulBincode] (rel : Refines m c a)
    (later : Transition.Reaches (step m) Orderly c c') :
    ∃ a', Refines m c' a' ∧ Consensus.Steps m.quorums a a' := by
  induction later with
  | refl => exact ⟨a, rel, .refl⟩
  | next action _ orderly stepped ih =>
    obtain ⟨b, relB, before⟩ := ih
    obtain ⟨leading, served, clean⟩ := orderly
    obtain ⟨member, e, acted, rfl⟩ := step_ok stepped
    obtain ⟨b', moves⟩ := effect_moves relB member leading served clean acted
    exact ⟨b', relB.act member (effect_rules relB.elections member acted) moves,
      before.trans moves.steps⟩

omit [Bincode] in
theorem Membership.everyone (m : Membership) (member : n ∈ m.members) {P : Nat → Prop}
    (all : ∀ v ∈ m.members, P v) : Majority m.members P := by
  have distinct : m.members.Nodup := by
    have listed := Config.validate_nodup (m.valid n member)
    rw [m.configured n member] at listed
    exact (m.shared n member).nodup_iff.mp listed
  refine ⟨m.members.toFinset, ?_, ?_⟩
  · have positive := List.length_pos_of_mem member
    rw [List.toFinset_card_of_nodup distinct]
    omega
  · intro v listed
    have inside := List.mem_toFinset.mp listed
    exact ⟨inside, all v inside⟩

theorem Refines.commit_within (rel : Refines m c a) (member : n ∈ m.members) :
    (c.core n).commitIndex ≤ (a.log n).length := by
  rw [← (rel.node n member).commit]
  exact (rel.known n).within rel.invariant

end Runs

/-- Leader append-only: while its node stays in the term it leads, through restarts and
snapshots, a leader's log keeps every entry and only gets longer. -/
theorem leader_append_only [Bincode] [LawfulBincode] {m : Membership} {c c' : Cluster} {n : Nat}
    (run : Reachable m Orderly c) (member : n ∈ m.members)
    (leads : (c.server n).core.role = .leader)
    (later : Transition.Reaches (step m) Orderly c c')
    (same : (c'.server n).core.hard.currentTerm = (c.server n).core.hard.currentTerm) :
    (c.server n).core.lastLogIndex ≤ (c'.server n).core.lastLogIndex ∧
      SameUpTo (c.server n).core.lastLogIndex (c.server n).core (c'.server n).core := by
  obtain ⟨a, rel⟩ := reachable_refines run
  obtain ⟨a', rel', steps⟩ := refines_run rel later
  have stands := rel.node n member
  have stands' := rel'.node n member
  have leading := stands.leads leads
  have term : a'.term n = a.term n := by
    rw [stands'.term, stands.term]
    exact same
  have led : Consensus.Led a (a.term n) := stands.term ▸ leading.led
  have shown : a.log n <+: a.hist (a.term n) := by
    rw [stands.term, ← leading.log]
  have kept := Consensus.steps_keep_shared steps term led List.prefix_rfl shown
  have last : (c.server n).core.lastLogIndex = (a.log n).length := stands.sound.holds.lastLogIndex
  rw [last]
  apply stands.sound.holds.sameUpTo_of_prefix stands'.sound.holds le_rfl
  rwa [List.take_length]

/-- Node 1 leads with two entries, compacts them, appends a third and restarts. -/
theorem leader_append_only_restarted : ∃ c c', Reachable trio Orderly c ∧
    Transition.Reaches (step trio) Orderly c c' ∧
    (c.server 1).core.role = .leader ∧ (c.server 1).core.lastLogIndex = 2 ∧
    (c'.server 1).core.role = .follower ∧ (c'.server 1).core.snapshot.lastIncludedIndex = 2 ∧
    (c.server 1).core.lastLogIndex ≤ (c'.server 1).core.lastLogIndex ∧
      SameUpTo (c.server 1).core.lastLogIndex (c.server 1).core (c'.server 1).core := by
  have ran : ((Transition.execute (step trio) Orderly (boot trio ⟨0, 0⟩) (lagging.take 7)).any
      fun c => decide ((c.server 1).core.role = .leader ∧ (c.server 1).core.lastLogIndex = 2 ∧
        (c.server 1).core.hard.currentTerm = 1) &&
      (Transition.execute (step trio) Orderly c (lagging.drop 7 ++ [.crash 1 ⟨0, 0⟩])).any
        fun c' => decide ((c'.server 1).core.role = .follower ∧
          (c'.server 1).core.snapshot.lastIncludedIndex = 2 ∧
          (c'.server 1).core.hard.currentTerm = 1)) = true := by
    decide +kernel
  obtain ⟨c, reached, shown⟩ := boot_shows trio ⟨0, 0⟩ trio_timed ran
  obtain ⟨now, rest⟩ := Bool.and_eq_true_iff.mp shown
  obtain ⟨leads, last, term⟩ := of_decide_eq_true now
  obtain ⟨c', later, ended⟩ := Transition.execute_shows rest
  obtain ⟨follows, compacted, term'⟩ := of_decide_eq_true ended
  exact ⟨c, c', reached, later, leads, last, follows, compacted,
    leader_append_only reached (by decide) leads later (term'.trans term.symm)⟩

/-- Durability: what a node ever knew to be committed is from then on, through elections,
restarts and snapshots, in the logs of a majority. -/
theorem committed_stays_on_majority [Bincode] [LawfulBincode] {m : Membership} {c c' : Cluster}
    {n : Nat} (run : Reachable m Orderly c) (member : n ∈ m.members)
    (later : Transition.Reaches (step m) Orderly c c') :
    Majority m.members fun v =>
      (c.server n).core.commitIndex ≤ (c'.server v).core.lastLogIndex ∧
        SameUpTo (c.server n).core.commitIndex (c.server n).core (c'.server v).core := by
  obtain ⟨a, rel⟩ := reachable_refines run
  obtain ⟨a', rel', steps⟩ := refines_run rel later
  have stands := rel.node n member
  have within := rel.commit_within member
  have held {v : Nat} (listed : v ∈ m.members)
      (inside : (a.log n).take (c.core n).commitIndex <+: a'.log v) :=
    stands.sound.holds.sameUpTo_of_prefix (rel'.node v listed).sound.holds within inside
  have known : Known a n (c.core n).commitIndex := stands.commit ▸ rel.known n
  rcases known.held rel.invariant (Consensus.steps_extends steps) rel'.invariant with
    none | ⟨holders, quorum, has⟩
  · apply m.everyone member
    intro v listed
    apply held listed
    rw [none, List.take_zero]
    exact List.nil_prefix
  · apply quorum.mono
    intro v listed holder
    exact held listed (has v holder)

/-- Node 1 has committed two entries, which it then compacts. -/
theorem committed_stays_on_majority_compacted : ∃ c c', Reachable trio Orderly c ∧
    Transition.Reaches (step trio) Orderly c c' ∧
    (c.server 1).core.commitIndex = 2 ∧ (c'.server 1).core.snapshot.lastIncludedIndex = 2 ∧
    Majority trio.members fun v =>
      (c.server 1).core.commitIndex ≤ (c'.server v).core.lastLogIndex ∧
        SameUpTo (c.server 1).core.commitIndex (c.server 1).core (c'.server v).core := by
  have ran : ((Transition.execute (step trio) Orderly (boot trio ⟨0, 0⟩) (lagging.take 10)).any
      fun c => decide ((c.server 1).core.commitIndex = 2) &&
      (Transition.execute (step trio) Orderly c (lagging.drop 10 ++ [.crash 1 ⟨0, 0⟩])).any
        fun c' => decide ((c'.server 1).core.snapshot.lastIncludedIndex = 2)) = true := by
    decide +kernel
  obtain ⟨c, reached, shown⟩ := boot_shows trio ⟨0, 0⟩ trio_timed ran
  obtain ⟨now, rest⟩ := Bool.and_eq_true_iff.mp shown
  obtain ⟨c', later, ended⟩ := Transition.execute_shows rest
  exact ⟨c, c', reached, later, of_decide_eq_true now, of_decide_eq_true ended,
    committed_stays_on_majority reached (by decide : 1 ∈ trio.members) later⟩

/-- State machine safety with snapshots: on each node the snapshot, the applied, the committed
and the last index are in order; two nodes have the same wherever both have committed; and what
any node was handed for an index is what every node that has committed there holds. -/
theorem snapshots_keep_state_machine_safety [Bincode] [LawfulBincode] {m : Membership}
    {c : Cluster} (run : Reachable m Orderly c) :
    (∀ n ∈ m.members,
      (c.server n).core.snapshot.lastIncludedIndex ≤ (c.server n).core.lastApplied ∧
      (c.server n).core.lastApplied ≤ (c.server n).core.commitIndex ∧
      (c.server n).core.commitIndex ≤ (c.server n).core.lastLogIndex) ∧
    (∀ n ∈ m.members, ∀ k ∈ m.members,
      SameUpTo (min (c.server n).core.commitIndex (c.server k).core.commitIndex)
        (c.server n).core (c.server k).core) ∧
    (∀ n k i x y, .applied n i x ∈ c.trace → .applied k i y ∈ c.trace → x = y ∧ x.index = i) ∧
    ∀ n ∈ m.members, ∀ k i x, .applied k i x ∈ c.trace →
      (c.server n).core.snapshot.lastIncludedIndex < i → i ≤ (c.server n).core.commitIndex →
      (c.server n).core.entryAt i = some x := by
  obtain ⟨a, rel⟩ := reachable_refines run
  have inv := rel.invariant
  have known {n : Nat} (member : n ∈ m.members) : Known a n (c.core n).commitIndex :=
    (rel.node n member).commit ▸ rel.known n
  refine ⟨?_, ?_, ?_, ?_⟩
  · intro n member
    exact ⟨(rel.node n member).compacted, rel.order member⟩
  · intro n first k second
    have left := rel.commit_within first
    have right := rel.commit_within second
    have agree := (known first).agree inv (known second)
    have order : min (c.core n).commitIndex (c.core k).commitIndex ≤ (c.core n).commitIndex ∧
        min (c.core n).commitIndex (c.core k).commitIndex ≤ (c.core k).commitIndex := by omega
    exact (rel.node n first).sound.holds.sameUpTo (rel.node k second).sound.holds agree
      (order.1.trans left) (order.2.trans right)
  · intro n k i x y left right
    exact ⟨rel.applied_agree left right, rel.applied_index left⟩
  · intro n member k i x event above committed
    have within := rel.commit_within member
    obtain ⟨t, j, commits, positive, reach, found⟩ := rel.applied event
    have reached : i ≤ (c.core n).commitIndex := committed
    have bound : i - 1 < (a.log n).length := by omega
    have here : (a.log n)[i - 1]? = some (a.log n)[i - 1] := List.getElem?_eq_getElem bound
    obtain ⟨u, r, commits', reach', found'⟩ := (known member).entry inv (by omega) here
    have agree := Consensus.commits_agree inv commits commits' (show i - 1 < j by omega) reach'
    have lookup : (c.core n).entryAt i = (a.log n)[i - 1]? :=
      (rel.node n member).sound.holds.entryAt above
    rw [found, found'] at agree
    exact lookup.trans (here.trans agree.symm)

/-- Node 1 has handed out and compacted two entries, of which node 2 knows the first to be
committed. -/
theorem snapshots_keep_state_machine_safety_lagging : ∃ c x, Reachable trio Orderly c ∧
    (c.server 1).core.snapshot.lastIncludedIndex = 2 ∧ .applied 1 1 x ∈ c.trace ∧
    (c.server 2).core.commitIndex = 1 ∧ (c.server 2).core.entryAt 1 = some x := by
  have ran : ((Transition.execute (step trio) Orderly (boot trio ⟨0, 0⟩) lagging).any fun c =>
      decide ((c.server 1).core.snapshot.lastIncludedIndex = 2 ∧
        (c.server 2).core.snapshot.lastIncludedIndex = 0 ∧ (c.server 2).core.commitIndex = 1) &&
      c.trace.any (Event.hands 1 1)) = true := by
    decide +kernel
  obtain ⟨c, reached, shown⟩ := boot_shows trio ⟨0, 0⟩ trio_timed ran
  obtain ⟨now, handed⟩ := Bool.and_eq_true_iff.mp shown
  obtain ⟨compacted, whole, committed⟩ := of_decide_eq_true now
  obtain ⟨x, event⟩ := Event.of_hands handed
  obtain ⟨_, _, _, found⟩ := snapshots_keep_state_machine_safety reached
  exact ⟨c, x, reached, compacted, event, committed,
    found 2 (by decide) 1 1 x event (by omega) (by omega)⟩

/-- Log matching with snapshots: two nodes that know the same term at an index have the same
at every index up to there that neither snapshot hides. -/
theorem snapshots_keep_log_matching [Bincode] [LawfulBincode] {m : Membership} {c : Cluster}
    {n k i term : Nat} (run : Reachable m Orderly c) (first : n ∈ m.members)
    (second : k ∈ m.members) (left : (c.server n).core.termAt i = some term)
    (right : (c.server k).core.termAt i = some term) :
    SameUpTo i (c.server n).core (c.server k).core := by
  obtain ⟨a, rel⟩ := reachable_refines run
  have holds : (c.server n).core.Holds (a.log n) := (rel.node n first).sound.holds
  have other : (c.server k).core.Holds (a.log k) := (rel.node k second).sound.holds
  obtain ⟨within, stamp⟩ := holds.of_termAt left
  obtain ⟨within', stamp'⟩ := other.of_termAt right
  apply holds.sameUpTo other _ within within'
  cases i with
  | zero => rfl
  | succ i =>
    apply (rel.invariant.rooted n).matching_logs (rel.invariant.rooted k) i (a.log n)[i]
      (a.log k)[i] (List.getElem?_eq_getElem within) (List.getElem?_eq_getElem within')
    rw [Consensus.termAt_succ, List.getElem?_eq_getElem within] at stamp
    rw [Consensus.termAt_succ, List.getElem?_eq_getElem within'] at stamp'
    exact stamp.trans stamp'.symm

/-- Node 1 knows the term at index 2 from its snapshot only, node 2 from the entry. -/
theorem snapshots_keep_log_matching_lagging : ∃ c, Reachable trio Orderly c ∧
    (c.server 1).core.snapshot.lastIncludedIndex = 2 ∧
    (c.server 2).core.snapshot.lastIncludedIndex = 0 ∧
    SameUpTo 2 (c.server 1).core (c.server 2).core := by
  have ran : ((Transition.execute (step trio) Orderly (boot trio ⟨0, 0⟩) lagging).any fun c =>
      decide ((c.server 1).core.snapshot.lastIncludedIndex = 2 ∧
        (c.server 2).core.snapshot.lastIncludedIndex = 0 ∧
        (c.server 1).core.termAt 2 = some 1 ∧ (c.server 2).core.termAt 2 = some 1)) = true := by
    decide +kernel
  obtain ⟨c, reached, shown⟩ := boot_shows trio ⟨0, 0⟩ trio_timed ran
  obtain ⟨compacted, whole, left, right⟩ := of_decide_eq_true shown
  exact ⟨c, reached, compacted, whole,
    snapshots_keep_log_matching reached (by decide) (by decide) left right⟩

end WalKv
