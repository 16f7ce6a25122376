import WalKv.Cluster.Elections
import WalKv.Raft.Sound
import WalKv.Consensus.Moves

/-! The cluster refines the replication protocol. The protocol state that a
cluster stands for gives every node its log, and says of every request, answer
and event what it means for the leaders' logs. An action of one node then only
has to show how it moves the protocol and that what it adds is so. -/
namespace WalKv
open RaftCore
open Consensus (Led Known Extends Invariant lastTerm UpToDate)

abbrev Spec := Consensus.State Nat LogEntry

abbrev Membership.quorums (m : Membership) : Consensus.Quorums Nat :=
  Consensus.majorities m.members

variable [Bincode] {m : Membership} {c : Cluster} {a a' : Spec} {n : Nat} {e : Effect}

/-- A request shows a stretch of its leader's log, and a commit index that some
leader up to its term had reached. -/
structure Shows (a : Spec) (args : AppendEntriesArgs) : Prop where
  led : Led a args.term
  within : args.lastSent ≤ (a.hist args.term).length
  entries : args.entries = ((a.hist args.term).take args.lastSent).drop args.prevLogIndex
  prev : args.prevLogTerm = Consensus.termAt (a.hist args.term) args.prevLogIndex
  commit : args.leaderCommit ≤ args.lastSent
  known : args.leaderCommit = 0 ∨
    ∃ u k, a.commits u k ∧ u ≤ args.term ∧ args.leaderCommit ≤ k

omit [Bincode] in
theorem Shows.mono {args : AppendEntriesArgs} (shown : Shows a args) (grown : Extends a a') :
    Shows a' args where
  led := grown.led shown.led
  within := shown.within.trans (grown.hist shown.led).length_le
  entries := by
    rw [grown.hist_take shown.led shown.within]
    exact shown.entries
  prev := by
    have inside : args.prevLogIndex ≤ (a.hist args.term).length :=
      (Nat.le_add_right _ _).trans shown.within
    rw [Consensus.prefix_termAt (grown.hist shown.led) inside]
    exact shown.prev
  commit := shown.commit
  known := shown.known.imp_right fun ⟨u, k, committed, rest⟩ =>
    ⟨u, k, grown.commits committed, rest⟩

/-- A leader's log is its term's history, and its bookkeeping is backed by
acknowledgements. -/
structure Leads (a : Spec) (n : Nat) (core : Core) : Prop where
  led : Led a core.hard.currentTerm
  log : a.log n = a.hist core.hard.currentTerm
  next : ∀ p i, core.nextIndex p = some i → 1 ≤ i ∧ i ≤ (a.log n).length + 1
  acked : ∀ p i, core.matchIndex p = some i → i = 0 ∨ a.acks p core.hard.currentTerm i

/-- The core of node `n` is where the protocol says. -/
structure Stands (a : Spec) (n : Nat) (core : Core) : Prop where
  sound : core.Sound (a.log n)
  term : a.term n = core.hard.currentTerm
  commit : a.commit n = core.commitIndex
  compacted : core.snapshot.lastIncludedIndex ≤ core.lastApplied
  applied : core.lastApplied ≤ core.commitIndex
  leads : core.role = .leader → Leads a n core

/-- Entries that carry their positions and can be written to the log. -/
structure Storable (l : List LogEntry) : Prop where
  indexed : Indexed l
  encodable : ∀ e ∈ l, Encodable e

structure Refines (m : Membership) (c : Cluster) (a : Spec) : Prop where
  run : Consensus.Reachable m.quorums a
  elections : Elections m c
  node : ∀ n ∈ m.members, Stands a n (c.core n)
  storable : ∀ {t}, Led a t → Storable (a.hist t)
  /-- While its sender still campaigns, a vote request describes its log. -/
  asked : ∀ call ∈ c.voteCalls, (c.core call.src).role = .candidate →
    call.args.term = (c.core call.src).hard.currentTerm →
    call.args.lastLogTerm = lastTerm (a.log call.src) ∧
      call.args.lastLogIndex = (a.log call.src).length
  /-- A vote counts in the protocol unless its term was already won. -/
  voted : ∀ {v u x}, .voted v u x ∈ c.trace → Led a u ∨ ∃ l, a.votes v u l ∧
    ((c.core x).role = .candidate → (c.core x).hard.currentTerm = u → UpToDate l (a.log x))
  sent : ∀ call ∈ c.appendCalls, Shows a call.args
  acked : ∀ answer ∈ c.appendAnswers, answer.reply.success = true →
    a.acks answer.peer answer.term answer.lastSent
  elected : ∀ {core}, .elected core ∈ c.trace →
    ∃ b, a.lead core.hard.currentTerm = some b ∧ core.Holds b
  wonBy : ∀ {t}, Led a t → ∃ core, .elected core ∈ c.trace ∧ core.hard.currentTerm = t
  committed : ∀ {core}, .committed core ∈ c.trace →
    a.commits core.hard.currentTerm core.commitIndex ∧
      ∃ l, core.Holds l ∧ core.commitIndex ≤ l.length ∧ l <+: a.hist core.hard.currentTerm
  applied : ∀ {n i x}, .applied n i x ∈ c.trace →
    ∃ t k, a.commits t k ∧ 1 ≤ i ∧ i ≤ k ∧ (a.hist t)[i - 1]? = some x

/-- How an action of node `n` moves the protocol from `a` to `a'`, and what the
things it adds mean there. -/
structure Moves (m : Membership) (c : Cluster) (a : Spec) (n : Nat) (e : Effect) (a' : Spec) :
    Prop where
  steps : Consensus.Steps m.quorums a a'
  others : ∀ v, v ≠ n → a'.term v = a.term v ∧ a'.log v = a.log v ∧ a'.commit v = a.commit v
  hist : ∀ v ∈ m.members, v ≠ n → (c.core v).role = .leader →
    a'.hist (c.core v).hard.currentTerm = a.hist (c.core v).hard.currentTerm
  node : Stands a' n e.server.core
  storable : ∀ {t}, Led a' t → Storable (a'.hist t)
  candidate : e.server.core.role = .candidate →
    (c.core n).hard.currentTerm < e.server.core.hard.currentTerm ∨
      (c.core n).role = .candidate ∧
        (c.core n).hard.currentTerm = e.server.core.hard.currentTerm ∧ a'.log n = a.log n
  asked : ∀ call ∈ e.voteCalls, call.args.lastLogTerm = lastTerm (a'.log n) ∧
    call.args.lastLogIndex = (a'.log n).length
  voted : ∀ {v u x}, .voted v u x ∈ e.events → Led a' u ∨ ∃ l, a'.votes v u l ∧
    (((c.apply n e).core x).role = .candidate →
      ((c.apply n e).core x).hard.currentTerm = u → UpToDate l (a'.log x))
  sent : ∀ call ∈ e.appendCalls, Shows a' call.args
  acked : ∀ answer ∈ e.appendAnswers, answer.reply.success = true →
    a'.acks answer.peer answer.term answer.lastSent
  elected : ∀ {core}, .elected core ∈ e.events →
    ∃ b, a'.lead core.hard.currentTerm = some b ∧ core.Holds b
  wonBy : ∀ {t}, Led a' t → Led a t ∨ ∃ core, .elected core ∈ e.events ∧ core.hard.currentTerm = t
  committed : ∀ {core}, .committed core ∈ e.events →
    a'.commits core.hard.currentTerm core.commitIndex ∧
      ∃ l, core.Holds l ∧ core.commitIndex ≤ l.length ∧ l <+: a'.hist core.hard.currentTerm
  applied : ∀ {k i x}, .applied k i x ∈ e.events →
    ∃ t j, a'.commits t j ∧ 1 ≤ i ∧ i ≤ j ∧ (a'.hist t)[i - 1]? = some x
  /-- Winning keeps the snapshot, and a commit is shown as it was left. -/
  shown : ∀ core, (.elected core ∈ e.events → core.snapshot = (c.core n).snapshot) ∧
    (.committed core ∈ e.events → core = e.server.core)

theorem Stands.mono {core : Core} (stands : Stands a n core) (grown : Extends a a')
    (same : a'.term n = a.term n ∧ a'.log n = a.log n ∧ a'.commit n = a.commit n)
    (hist : core.role = .leader →
      a'.hist core.hard.currentTerm = a.hist core.hard.currentTerm) : Stands a' n core where
  sound := same.2.1 ▸ stands.sound
  term := same.1.trans stands.term
  commit := same.2.2.trans stands.commit
  compacted := stands.compacted
  applied := stands.applied
  leads role := by
    have leads := stands.leads role
    refine ⟨grown.led leads.led, ?_, ?_, ?_⟩
    · rw [same.2.1, hist role]
      exact leads.log
    · rw [same.2.1]
      exact leads.next
    · exact fun p i found => (leads.acked p i found).imp_right grown.acks

namespace Refines

theorem invariant (rel : Refines m c a) : Invariant m.quorums a :=
  (Consensus.reachable_invariant rel.run).1

theorem known (rel : Refines m c a) (n : Nat) : Known a n (a.commit n) :=
  (Consensus.reachable_invariant rel.run).2 n

theorem takeCommitted (rel : Refines m c a) (member : n ∈ m.members) :
    (c.core n).takeCommitted =
      (((a.log n).take (c.core n).commitIndex).drop (c.core n).lastApplied,
        { c.core n with lastApplied := (c.core n).commitIndex }) := by
  have stands := rel.node n member
  have within := (rel.known n).within rel.invariant
  rw [stands.commit] at within
  exact stands.sound.holds.takeCommitted_run stands.compacted stands.applied within

/-- A candidate's log has not changed since its campaign started. -/
theorem candidate_act (moves : Moves m c a n e a') {x u : Nat}
    (reached : u ≤ (c.core x).hard.currentTerm) (role : ((c.apply n e).core x).role = .candidate)
    (now : ((c.apply n e).core x).hard.currentTerm = u) :
    (c.core x).role = .candidate ∧ (c.core x).hard.currentTerm = u ∧ a'.log x = a.log x := by
  by_cases acting : x = n
  · subst acting
    rw [c.apply_core_self] at role now
    rcases moves.candidate role with newer | ⟨before, same, log⟩
    · omega
    · exact ⟨before, same.trans now, log⟩
  · rw [c.apply_core_other e acting] at role now
    exact ⟨role, now, (moves.others x acting).2.1⟩

theorem asked_act (rel : Refines m c a) (rules : VoteRules m c n e) (moves : Moves m c a n e a')
    {call : VoteCall} (sent : call ∈ (c.apply n e).voteCalls)
    (role : ((c.apply n e).core call.src).role = .candidate)
    (now : call.args.term = ((c.apply n e).core call.src).hard.currentTerm) :
    call.args.lastLogTerm = lastTerm (a'.log call.src) ∧
      call.args.lastLogIndex = (a'.log call.src).length := by
  rcases List.mem_append.mp sent with old | new
  · have reached := (rel.elections.asked call old).2.2.2
    obtain ⟨before, same, log⟩ := candidate_act moves reached role now.symm
    rw [log]
    exact rel.asked call old before same.symm
  · rw [(rules.asked call new).1]
    exact moves.asked call new

theorem voted_act (rel : Refines m c a) (grown : Extends a a') (moves : Moves m c a n e a')
    {v u x : Nat} (vote : .voted v u x ∈ (c.apply n e).trace) :
    Led a' u ∨ ∃ l, a'.votes v u l ∧ (((c.apply n e).core x).role = .candidate →
      ((c.apply n e).core x).hard.currentTerm = u → UpToDate l (a'.log x)) := by
  rcases List.mem_append.mp vote with old | new
  · refine (rel.voted old).imp grown.led fun ⟨l, given, order⟩ => ⟨l, grown.votes given, ?_⟩
    intro role now
    have reached := (rel.elections.recorded old).2.2.2
    obtain ⟨before, same, log⟩ := candidate_act moves reached role now
    rw [log]
    exact order before same
  · exact moves.voted new

theorem node_act (rel : Refines m c a) (grown : Extends a a') (moves : Moves m c a n e a') :
    ∀ v ∈ m.members, Stands a' v ((c.apply n e).core v) := by
  intro v member
  by_cases acting : v = n
  · subst acting
    simpa using moves.node
  · rw [c.apply_core_other e acting]
    exact (rel.node v member).mono grown (moves.others v acting) (moves.hist v member acting)

theorem act (rel : Refines m c a) (member : n ∈ m.members) (rules : VoteRules m c n e)
    (moves : Moves m c a n e a') : Refines m (c.apply n e) a' := by
  have grown := Consensus.steps_extends moves.steps
  have inv := rel.invariant
  exact
    { run := rel.run.trans moves.steps
      elections := rel.elections.act member rules
      node := rel.node_act grown moves
      storable := moves.storable
      asked := fun call => rel.asked_act rules moves
      voted := rel.voted_act grown moves
      sent := fun call sent => (List.mem_append.mp sent).elim
        (fun old => (rel.sent call old).mono grown) (moves.sent call)
      acked := fun answer given success => (List.mem_append.mp given).elim
        (fun old => grown.acks (rel.acked answer old success))
        (fun new => moves.acked answer new success)
      elected := fun elected => (List.mem_append.mp elected).elim
        (fun old => (rel.elected old).imp fun _ ⟨lead, holds⟩ => ⟨grown.lead lead, holds⟩)
        moves.elected
      wonBy := fun led => (moves.wonBy led).elim
        (fun old => (rel.wonBy old).imp fun _ ⟨won, term⟩ => ⟨List.mem_append_left _ won, term⟩)
        (fun ⟨core, won, term⟩ => ⟨core, List.mem_append_right _ won, term⟩)
      committed := fun committed => (List.mem_append.mp committed).elim
        (fun old => by
          obtain ⟨commits, l, holds, within, inside⟩ := rel.committed old
          exact ⟨grown.commits commits, l, holds, within,
            inside.trans (grown.hist (inv.committed commits).1)⟩)
        moves.committed
      applied := fun applied => (List.mem_append.mp applied).elim
        (fun old => by
          obtain ⟨t, k, commits, first, last, found⟩ := rel.applied old
          refine ⟨t, k, grown.commits commits, first, last, ?_⟩
          obtain ⟨rest, same⟩ := grown.hist (inv.committed commits).1
          rw [← same, List.getElem?_append_left (List.getElem?_eq_some_iff.mp found).1]
          exact found)
        moves.applied }

end Refines
end WalKv
