import WalKv.Raft.BackOff
import WalKv.Raft.CommitRule

/-! Broadcasting brings a quorum up to date. The tasks of a broadcast run side by side, one for
each peer, and messages may be lost. Every reply that comes in brings the next index of its peer
down or its match index to the end of the leader's log; whatever the order, after as many replies
from each peer of a quorum as its next index says, the leader has committed its whole log, and two
replies later each of these peers knows. -/
namespace WalKv
open Transition

/-- How far the task of a broadcast for one peer is. -/
inductive Task where
  | asked (args : AppendEntriesArgs)
  | answered (args : AppendEntriesArgs) (reply : AppendEntriesReply)

/-- A leader, the nodes it broadcasts to, and the task that is under way for each. -/
structure Group (V W : Type) where
  leader : RaftCore V
  follower : Nat → RaftCore W
  task : Nat → Option Task

namespace Group
open RaftCore
variable {V W : Type} {s s' : Group V W} {h l : List LogEntry} {p q i : Nat}

/-- The locked sections of the tasks, the handler of the peer, and a request or a reply that the
transport loses. -/
inductive Move where
  | build (peer : Nat)
  | deliver (peer : Nat) (clock : Clock)
  | fold (peer : Nat)
  | lose (peer : Nat)

/-- A reply of the peer comes in. -/
def Move.folds (p : Nat) : Move → Bool
  | .fold peer => peer = p
  | _ => false

section Step
variable [WalOps W] [Bincode]

def step (s : Group V W) : Move → Option (Group V W)
  | .build peer =>
    match s.task peer with
    | none => if peer ∈ s.leader.peers then
        some { s with
          task := Function.update s.task peer (some (.asked (s.leader.buildAppendEntries peer))) }
      else none
    | some _ => none
  | .deliver peer clock =>
    match s.task peer with
    | some (.asked args) =>
      match handleAppendEntries clock args (s.follower peer) with
      | (.ok reply, follower) => some { s with
          follower := Function.update s.follower peer follower
          task := Function.update s.task peer (some (.answered args reply)) }
      | (.error _, follower) => some { s with
          follower := Function.update s.follower peer follower
          task := Function.update s.task peer none }
    | _ => none
  | .fold peer =>
    match s.task peer with
    | some (.answered args reply) =>
      -- A newer term, or a term that is over, ends the broadcast and its tasks.
      if s.leader.hard.currentTerm < reply.term then
        some { s with leader := (becomeFollower reply.term none s.leader).2, task := fun _ => none }
      else if !s.leader.isLeader || s.leader.hard.currentTerm ≠ args.term then
        some { s with task := fun _ => none }
      else some { s with
        leader := s.leader.onAppendEntriesReply peer args.lastSent reply
        task := Function.update s.task peer none }
    | _ => none
  | .lose peer => some { s with task := Function.update s.task peer none }

end Step
end Group

namespace RaftCore
variable {W : Type} [WalOps W] [Bincode] [Journal W] {core : RaftCore W} {args : AppendEntriesArgs}

end RaftCore

namespace Pairing
open RaftCore
variable {V W : Type} [WalOps W] [Bincode] [Journal W] {s : Pairing V W} {h l : List LogEntry}
  {args : AppendEntriesArgs}

theorem Repairing.deliver (repairing : s.Repairing h l) (built : Built h args)
    (covers : args.lastSent = h.length) (sender : args.term = s.leader.hard.currentTerm)
    (recordable : ∀ e ∈ h, Recordable W e) (clock : Clock) :
    ∃ reply follower l', handleAppendEntries clock args s.follower = (.ok reply, follower) ∧
      Repairing { s with follower } h l' ∧ reply.term ≤ s.leader.hard.currentTerm ∧
      (∀ x, x <+: l → x <+: h → x <+: l') ∧
      (reply.success = true ∧ h <+: l' ∨
        reply.success = false ∧ ¬ h.take args.prevLogIndex <+: l) ∧
      (h <+: l' → h.length ≤ s.follower.commitIndex ∨
          reply.success = true ∧ h.length ≤ args.leaderCommit →
        h.length ≤ follower.commitIndex) := by
  have indexed := repairing.holds.indexed
  have before := repairing.current
  have taken : ∀ e ∈ args.entries, Recordable W e := by
    intro e member
    rw [built.entries] at member
    exact recordable e (List.mem_of_mem_take (List.mem_of_mem_drop member))
  obtain ⟨reply, follower, handled, working, told, knows⟩ :=
    repairing.working.replies (built.contiguous indexed) taken clock
  obtain ⟨l', trails, common, adopted, outcome⟩ := repairing.trails.handle built indexed clock
  have bare := handleAppendEntries_snapshot clock args s.follower
  rw [handled] at trails adopted outcome bare
  simp only at trails adopted bare
  have current : follower.hard.currentTerm ≤ s.leader.hard.currentTerm := by omega
  refine ⟨reply, follower, l', handled, ?_, told.trans_le current, common, ?_, ?_⟩
  · exact repairing.folded rfl bare current working trails
  · rcases outcome reply rfl with ⟨success, _, merged⟩ | ⟨failed, _, behind⟩
    · refine .inl ⟨success, ?_⟩
      rw [merged, covers, List.take_length]
      exact Consensus.shown_prefix_merge _ _
    · exact .inr ⟨failed, behind (sender ▸ before)⟩
  · intro whole known
    apply knows h.length _ known
    rw [trails.holds.lastLogIndex]
    exact whole.length_le

end Pairing

namespace Group
open RaftCore
variable {V W : Type} [WalOps W] [Bincode] [Journal W] {s s' : Group V W}
  {h l : List LogEntry} {p q i : Nat} {move : Move} {moves : List Move}

/-- What is known of a task, for a leader with the log `h` and a peer with the log `l`. -/
def Underway (leader : RaftCore V) (h l : List LogEntry) (i : Nat) : Option Task → Prop
  | none => True
  | some (.asked args) => Built h args ∧ args.prevLogIndex = i - 1 ∧ args.lastSent = h.length ∧
      args.term = leader.hard.currentTerm
  | some (.answered args reply) => args.lastSent = h.length ∧
      args.term = leader.hard.currentTerm ∧ reply.term ≤ leader.hard.currentTerm ∧
      (reply.success = true ∧ h <+: l ∨ reply.success = false ∧ 1 < i)

/-- Where the leader is with a peer. -/
structure Tracks (s : Group V W) (h : List LogEntry) (p : Nat) (l : List LogEntry) (i : Nat) :
    Prop where
  repairing : Pairing.Repairing ⟨s.leader, s.follower p⟩ h l
  next : Pairing.NextAt (⟨s.leader, s.follower p⟩ : Pairing V W) p i
  task : Underway s.leader h l i (s.task p)

/-- The leader's book keeping moves, and what it knows of the peer stays. -/
structure Aside (p : Nat) (core core' : RaftCore V) : Prop where
  only : core' = { core with
    commitIndex := core'.commitIndex, matchIndex := core'.matchIndex, nextIndex := core'.nextIndex }
  next : core'.nextIndex p = core.nextIndex p

theorem Tracks.aside (tracks : Tracks s h p l i) (leader : Aside p s.leader s'.leader)
    (follower : s'.follower p = s.follower p) (task : s'.task p = s.task p) :
    Tracks s' h p l i where
  repairing := by
    have old := tracks.repairing
    rw [follower]
    exact old.folded leader.only rfl old.current old.working old.trails
  next := by
    have last : s'.leader.lastLogIndex = s.leader.lastLogIndex := by
      rw [leader.only]
      rfl
    exact ⟨leader.next.trans tracks.next.known, tracks.next.positive,
      last.symm ▸ tracks.next.within⟩
  task := by
    have term : s'.leader.hard = s.leader.hard := by rw [leader.only]
    have underway := tracks.task
    rw [task]
    revert underway
    rcases s.task p with _ | ⟨args⟩ | ⟨args, reply⟩ <;> simp only [Underway, term] <;> exact id

theorem Tracks.retask (tracks : Tracks s h p l i) {task : Option Task}
    (underway : Underway s.leader h l i task) :
    Tracks { s with task := Function.update s.task p task } h p l i :=
  ⟨tracks.repairing, tracks.next, by simpa using underway⟩

theorem Tracks.build (tracks : Tracks s h p l i) :
    Underway s.leader h l i (some (.asked (s.leader.buildAppendEntries p))) := by
  have last : s.leader.lastLogIndex = h.length := tracks.repairing.holds.lastLogIndex
  have plain : s.leader.snapshot.lastIncludedIndex = 0 := tracks.repairing.plain
  have positive := tracks.next.positive
  have within : i ≤ s.leader.lastLogIndex + 1 := tracks.next.within
  have holds : s.leader.Holds h := tracks.repairing.holds
  have asked : (s.leader.nextIndex p).getD (s.leader.lastLogIndex + 1) = i := by
    rw [tracks.next.known]
    rfl
  obtain ⟨built, prev, covers⟩ := holds.built asked (by omega) (by omega)
  exact ⟨built, prev, covers, rfl⟩

theorem Tracks.deliver (tracks : Tracks s h p l i) (recordable : ∀ e ∈ h, Recordable W e)
    {args : AppendEntriesArgs} (asked : s.task p = some (.asked args)) (clock : Clock) :
    ∃ reply follower l', handleAppendEntries clock args (s.follower p) = (.ok reply, follower) ∧
      Tracks { s with
        follower := Function.update s.follower p follower
        task := Function.update s.task p (some (.answered args reply)) } h p l' i ∧
      (h <+: l → h <+: l') ∧
      (h <+: l → h.length ≤ (s.follower p).commitIndex ∨ h.length ≤ args.leaderCommit →
        h.length ≤ follower.commitIndex) := by
  have underway := tracks.task
  rw [asked] at underway
  obtain ⟨built, prev, covers, sender⟩ := underway
  obtain ⟨reply, follower, l', handled, repairing, told, common, outcome, knows⟩ :=
    tracks.repairing.deliver built covers sender recordable clock
  have keeps (whole : h <+: l) : h <+: l' := common h whole List.prefix_rfl
  refine ⟨reply, follower, l', handled, ⟨by simpa using repairing, ?_, ?_⟩, keeps, ?_⟩
  · exact ⟨tracks.next.known, tracks.next.positive, tracks.next.within⟩
  · simp only [Function.update_self]
    refine ⟨covers, sender, told, ?_⟩
    rcases outcome with accepted | ⟨failed, lacks⟩
    · exact .inl accepted
    · refine .inr ⟨failed, ?_⟩
      by_contra bottom
      apply lacks
      rw [prev, Nat.sub_eq_zero_of_le (Nat.le_of_not_lt bottom), List.take_zero]
      exact List.nil_prefix
  · intro whole known
    apply knows (keeps whole)
    rcases outcome with ⟨success, _⟩ | ⟨_, lacks⟩
    · exact known.imp_right fun said => ⟨success, said⟩
    · exact absurd ((List.take_prefix _ _).trans whole) lacks

theorem Tracks.fold (tracks : Tracks s h p l i) {args : AppendEntriesArgs}
    {reply : AppendEntriesReply} (answered : s.task p = some (.answered args reply)) :
    ∃ leader, leader = s.leader.onAppendEntriesReply p args.lastSent reply ∧
      step s (.fold p) = some { s with leader, task := Function.update s.task p none } ∧
      (∀ q, q ≠ p → Aside q s.leader leader) ∧
      ((∃ i' < i, Tracks { s with leader, task := Function.update s.task p none } h p l i' ∧
          reply.success = false ∧ leader.matchIndex = s.leader.matchIndex ∧
          leader.commitIndex = s.leader.commitIndex) ∨
        Tracks { s with leader, task := Function.update s.task p none } h p l (h.length + 1) ∧
          reply.success = true ∧ h <+: l ∧ args.lastSent = h.length) := by
  have underway := tracks.task
  rw [answered] at underway
  obtain ⟨covers, sender, told, outcome⟩ := underway
  have leads : s.leader.role = .leader := tracks.repairing.leads
  have last : s.leader.lastLogIndex = h.length := tracks.repairing.holds.lastLogIndex
  refine ⟨_, rfl, ?_, ?_, ?_⟩
  · have current : ¬ s.leader.hard.currentTerm < reply.term := Nat.not_lt.mpr told
    have still : ¬ (!s.leader.isLeader || decide (s.leader.hard.currentTerm ≠ args.term)) = true := by
      simp [isLeader, leads, sender]
    simp only [step, answered, if_neg current, if_neg still]
  · intro q other
    rcases success : reply.success with _ | _
    · obtain ⟨_, _, _, same⟩ : ∃ i', _ ∧ _ ∧
          s.leader.onAppendEntriesReply p args.lastSent reply = _ :=
        onAppendEntriesReply_backs leads success
      rw [same]
      exact ⟨rfl, Function.update_of_ne other _ _⟩
    · rw [onAppendEntriesReply_taken leads success]
      exact ⟨rfl, Function.update_of_ne other _ _⟩
  · have old := tracks.repairing
    rcases outcome with ⟨success, whole⟩ | ⟨failed, beyond⟩
    · right
      have same : s.leader.onAppendEntriesReply p args.lastSent reply = _ :=
        onAppendEntriesReply_taken leads success
      refine ⟨⟨?_, ⟨?_, by omega, ?_⟩, by simp [Underway]⟩, success, whole, covers⟩
      · exact old.folded (by rw [same]) rfl old.current old.working old.trails
      · rw [same, covers]
        exact Function.update_self ..
      · rw [same]
        exact (congrArg (· + 1) last).ge
    · left
      obtain ⟨i', low, high, same⟩ : ∃ i', _ ∧ _ ∧
          s.leader.onAppendEntriesReply p args.lastSent reply = _ :=
        onAppendEntriesReply_backs leads failed
      have known : s.leader.nextIndex p = some i := tracks.next.known
      have within : i ≤ s.leader.lastLogIndex + 1 := tracks.next.within
      rw [known, Option.getD_some] at high
      refine ⟨i', by omega, ⟨?_, ⟨?_, low, ?_⟩, by simp [Underway]⟩, failed, ?_, ?_⟩
      · exact old.folded (by rw [same]) rfl old.current old.working old.trails
      · rw [same]
        exact Function.update_self ..
      · rw [same]
        show i' ≤ s.leader.lastLogIndex + 1
        omega
      · rw [same]
      · rw [same]

omit [WalOps W] [Bincode] [Journal W] in
theorem advance_reaches {core : RaftCore V} (holds : core.Holds h)
    (sized : core.clusterSize = core.peers.length + 1)
    (matched : ∀ p ∈ core.peers, (core.matchIndex p).getD 0 ≤ h.length)
    (own : Consensus.termAt h h.length = core.hard.currentTerm)
    (reached : core.quorum ≤ core.reachedBy h.length) :
    h.length ≤ core.advanceCommitIndex.commitIndex := by
  obtain ⟨candidate, found, member, reaches⟩ := candidate_exists sized
  have last := holds.lastLogIndex
  have above := (reaches h.length).mp reached
  have below := sortedMatches_le matched last.le candidate member
  obtain rfl : candidate = h.length := by omega
  have term : core.termAt h.length = some core.hard.currentTerm := by
    rw [holds.termAt holds.compacted le_rfl, own]
  rw [advanceCommitIndex, found]
  simp only
  split_ifs with commits
  · exact le_rfl
  · by_contra behind
    exact commits ⟨Nat.lt_of_not_le behind, term⟩

/-- The leader of the log `h`, which the peers in `hit` are known to have. -/
structure Ledger (core : RaftCore V) (h : List LogEntry) (hit : Finset Nat) : Prop where
  leads : core.role = .leader
  holds : core.Holds h
  sized : core.clusterSize = core.peers.length + 1
  distinct : core.peers.Nodup
  matched : ∀ p ∈ core.peers, (core.matchIndex p).getD 0 ≤ h.length
  own : Consensus.termAt h h.length = core.hard.currentTerm
  hits : ∀ p ∈ hit, p ∈ core.peers ∧ core.matchIndex p = some h.length
  commits : core.quorum ≤ hit.card + 1 → h.length ≤ core.commitIndex

omit [WalOps W] [Bincode] [Journal W] in
theorem Ledger.reachedBy {core : RaftCore V} {hit : Finset Nat} (holds : core.Holds h)
    (hits : ∀ p ∈ hit, p ∈ core.peers ∧ core.matchIndex p = some h.length) :
    hit.card + 1 ≤ core.reachedBy h.length := by
  have covered : hit ⊆
      (core.peers.filter fun p => h.length ≤ (core.matchIndex p).getD 0).toFinset := by
    intro p inside
    obtain ⟨listed, known⟩ := hits p inside
    rw [List.mem_toFinset, List.mem_filter]
    exact ⟨listed, by simp [known]⟩
  have counted := (Finset.card_le_card covered).trans (List.toFinset_card_le _)
  rw [← List.countP_eq_length_filter] at counted
  rw [RaftCore.reachedBy, holds.lastLogIndex, if_pos le_rfl]
  omega

omit [WalOps W] [Bincode] [Journal W] in
theorem Ledger.taken {core : RaftCore V} {hit : Finset Nat} {reply : AppendEntriesReply}
    (ledger : Ledger core h hit) (listed : p ∈ core.peers) (success : reply.success = true) :
    Ledger (core.onAppendEntriesReply p h.length reply) h (insert p hit) := by
  have moved : core.onAppendEntriesReply p h.length reply = _ :=
    onAppendEntriesReply_success ledger.leads success
  generalize same : ({ core with
    matchIndex := Function.update core.matchIndex p (some h.length)
    nextIndex := Function.update core.nextIndex p (some (h.length + 1)) } : RaftCore V) = booked
    at moved
  have holds : booked.Holds h := ledger.holds.congr (by rw [← same]) (by rw [← same])
  have sized : booked.clusterSize = booked.peers.length + 1 := by
    rw [← same]
    exact ledger.sized
  have own : Consensus.termAt h h.length = booked.hard.currentTerm := by
    rw [← same]
    exact ledger.own
  have known (q : Nat) : booked.matchIndex q =
      if q = p then some h.length else core.matchIndex q := by
    rw [← same]
    exact Function.update_apply ..
  have peers : booked.peers = core.peers := by rw [← same]
  have matched : ∀ q ∈ booked.peers, (booked.matchIndex q).getD 0 ≤ h.length := by
    intro q inside
    rw [known]
    split_ifs
    · exact le_rfl
    · exact ledger.matched q (peers ▸ inside)
  have hits : ∀ q ∈ insert p hit, q ∈ booked.peers ∧ booked.matchIndex q = some h.length := by
    intro q inside
    rw [known, peers]
    rcases Finset.mem_insert.mp inside with rfl | old
    · exact ⟨listed, if_pos rfl⟩
    · obtain ⟨listed', whole⟩ := ledger.hits q old
      rw [whole, ite_self]
      exact ⟨listed', rfl⟩
  have commits (enough : booked.quorum ≤ (insert p hit).card + 1) :
      h.length ≤ booked.advanceCommitIndex.commitIndex :=
    advance_reaches holds sized matched own (enough.trans (Ledger.reachedBy holds hits))
  rw [moved]
  have only := advanceCommitIndex_eq booked
  refine ⟨?_, ?_, ?_, ?_, ?_, ?_, ?_, ?_⟩
  · rw [only, ← same]
    exact ledger.leads
  · exact holds.congr (by rw [only]) (by rw [only])
  · rw [only]
    exact sized
  · rw [only, ← same]
    exact ledger.distinct
  · rw [only]
    exact matched
  · rw [only]
    exact own
  · rw [only]
    exact hits
  · intro enough
    rw [only] at enough
    exact commits enough

omit [WalOps W] [Bincode] [Journal W] in
theorem Ledger.refused {core core' : RaftCore V} {hit : Finset Nat} (ledger : Ledger core h hit)
    (only : core' = { core with
      commitIndex := core'.commitIndex, matchIndex := core'.matchIndex
      nextIndex := core'.nextIndex })
    (matched : core'.matchIndex = core.matchIndex)
    (commit : core'.commitIndex = core.commitIndex) : Ledger core' h hit := by
  rw [matched, commit] at only
  rw [only]
  exact ⟨ledger.leads, ledger.holds.congr rfl rfl, ledger.sized, ledger.distinct, ledger.matched,
    ledger.own, ledger.hits, ledger.commits⟩

/-- Only the peers in `P` can be reached. -/
def Within (P : Finset Nat) (_ : Group V W) : Move → Prop
  | .deliver p _ | .fold p => p ∈ P
  | .build _ | .lose _ => True

instance (P : Finset Nat) (s : Group V W) : (move : Move) → Decidable (Within P s move)
  | .deliver p _ | .fold p => inferInstanceAs (Decidable (p ∈ P))
  | .build _ | .lose _ => isTrue trivial

/-- Each peer of a quorum is known to have the whole log, or its next index and the replies it has
given so far do not exceed the next index it started with. -/
structure Converging (P : Finset Nat) (start : Nat → Nat) (h : List LogEntry) (hit : Finset Nat)
    (moves : List Move) (s : Group V W) : Prop where
  ledger : Ledger s.leader h hit
  quorate : s.leader.quorum ≤ P.card + 1
  peer : ∀ p ∈ P, p ∈ s.leader.peers ∧ ∃ l i, Tracks s h p l i ∧ (p ∈ hit → h <+: l) ∧
    (p ∈ hit ∨ i + moves.countP (·.folds p) ≤ start p)

namespace Converging
variable {P hit : Finset Nat} {start : Nat → Nat}

omit [WalOps W] [Bincode] [Journal W] in
theorem count_other {move : Move} (other : move.folds p = false) (moves : List Move) :
    (moves ++ [move]).countP (·.folds p) = moves.countP (·.folds p) := by
  simp [other]

theorem quiet (conv : Converging P start h hit moves s) (leader : s'.leader = s.leader)
    (silent : ∀ p, move.folds p = false)
    (peer : ∀ p ∈ P, ∀ l i, Tracks s h p l i → ∃ l', Tracks s' h p l' i ∧ (h <+: l → h <+: l')) :
    Converging P start h hit (moves ++ [move]) s' := by
  refine ⟨leader ▸ conv.ledger, leader ▸ conv.quorate, ?_⟩
  intro p inside
  obtain ⟨listed, l, i, tracks, whole, progress⟩ := conv.peer p inside
  obtain ⟨l', tracks', keeps⟩ := peer p inside l i tracks
  refine ⟨leader ▸ listed, l', i, tracks', fun known => keeps (whole known), ?_⟩
  rw [count_other (silent p)]
  exact progress

theorem retask (conv : Converging P start h hit moves s) {task : Option Task}
    (silent : ∀ p, move.folds p = false)
    (underway : ∀ l i, q ∈ P → Tracks s h q l i → Underway s.leader h l i task) :
    Converging P start h hit (moves ++ [move])
      { s with task := Function.update s.task q task } := by
  refine conv.quiet ?_ silent ?_
  · rfl
  intro p inside l i tracks
  refine ⟨l, ?_, id⟩
  by_cases here : p = q
  · subst here
    exact tracks.retask (underway l i inside tracks)
  · exact tracks.aside ⟨rfl, rfl⟩ rfl (Function.update_of_ne here _ _)

theorem deliver (conv : Converging P start h hit moves s) (recordable : ∀ e ∈ h, Recordable W e)
    (inside : q ∈ P) (clock : Clock) (stepped : step s (.deliver q clock) = some s') :
    Converging P start h hit (moves ++ [.deliver q clock]) s' := by
  simp only [step] at stepped
  split at stepped
  · rename_i args asked
    obtain ⟨_, _, _, point, _⟩ := conv.peer q inside
    obtain ⟨reply, follower, _, handled, _⟩ := point.deliver recordable asked clock
    rw [handled] at stepped
    cases stepped
    refine conv.quiet ?_ (fun _ => rfl) ?_
    · rfl
    intro p _ l i tracks
    by_cases here : p = q
    · subst here
      obtain ⟨reply', follower', l', handled', tracks', keeps, _⟩ :=
        tracks.deliver recordable asked clock
      rw [handled] at handled'
      cases handled'
      exact ⟨l', tracks', keeps⟩
    · exact ⟨l, tracks.aside ⟨rfl, rfl⟩ (Function.update_of_ne here _ _)
        (Function.update_of_ne here _ _), id⟩
  · cases stepped

theorem fold (conv : Converging P start h hit moves s) (inside : q ∈ P)
    (stepped : step s (.fold q) = some s') :
    ∃ hit', hit ⊆ hit' ∧ Converging P start h hit' (moves ++ [.fold q]) s' := by
  obtain ⟨listed, l, i, tracks, has, progress⟩ := conv.peer q inside
  have answered : ∃ args reply, s.task q = some (.answered args reply) := by
    simp only [step] at stepped
    split at stepped
    · exact ⟨_, _, by assumption⟩
    · cases stepped
  obtain ⟨args, reply, answered⟩ := answered
  obtain ⟨leader, ran, moved, aside, outcome⟩ := tracks.fold answered
  rw [moved] at stepped
  cases stepped
  have only : leader = _ := (aside (q + 1) (Nat.succ_ne_self q)).only
  have peers : leader.peers = s.leader.peers := by rw [only]
  have size : leader.clusterSize = s.leader.clusterSize := by rw [only]
  have quorum : leader.quorum = s.leader.quorum := congrArg (· / 2 + 1) size
  have others (hit' : Finset Nat) (same : ∀ p, p ≠ q → (p ∈ hit' ↔ p ∈ hit)) {p : Nat}
      (member : p ∈ P) (other : p ≠ q) : p ∈ leader.peers ∧ ∃ l i,
        Tracks { s with leader, task := Function.update s.task q none } h p l i ∧
        (p ∈ hit' → h <+: l) ∧
        (p ∈ hit' ∨ i + (moves ++ [Move.fold q]).countP (·.folds p) ≤ start p) := by
    obtain ⟨listed, l, i, tracks, has, progress⟩ := conv.peer p member
    refine ⟨peers ▸ listed, l, i,
      tracks.aside (aside p other) rfl (Function.update_of_ne other _ _), ?_⟩
    rw [count_other (by simp [Move.folds, Ne.symm other]), same p other]
    exact ⟨has, progress⟩
  rcases outcome with ⟨i', lower, tracks', _, matched, commit⟩ | ⟨tracks', success, whole, covers⟩
  · refine ⟨hit, Finset.Subset.refl _, conv.ledger.refused only matched commit,
      quorum ▸ conv.quorate, ?_⟩
    intro p member
    by_cases here : p = q
    · subst here
      refine ⟨peers ▸ listed, l, i', tracks', has, progress.imp_right ?_⟩
      intro closer
      rw [List.countP_append, List.countP_singleton, if_pos (by simp [Move.folds])]
      omega
    · exact others hit (fun _ _ => Iff.rfl) member here
  · refine ⟨insert q hit, Finset.subset_insert _ _, ?_, quorum ▸ conv.quorate, ?_⟩
    · rw [ran, covers]
      exact conv.ledger.taken listed success
    · intro p member
      by_cases here : p = q
      · subst here
        exact ⟨peers ▸ listed, l, _, tracks', fun _ => whole, .inl (Finset.mem_insert_self _ _)⟩
      · exact others _ (fun p other => by simp [other]) member here

theorem step (conv : Converging P start h hit moves s) (recordable : ∀ e ∈ h, Recordable W e)
    (within : Within P s move) (stepped : Group.step s move = some s') :
    ∃ hit', hit ⊆ hit' ∧ Converging P start h hit' (moves ++ [move]) s' := by
  cases move with
  | build q =>
    simp only [Group.step] at stepped
    split at stepped
    · split_ifs at stepped
      cases stepped
      refine ⟨hit, Finset.Subset.refl _, conv.retask (fun _ => rfl) ?_⟩
      intro l i _ tracks
      exact tracks.build
    · cases stepped
  | deliver q clock => exact ⟨hit, Finset.Subset.refl _, conv.deliver recordable within clock stepped⟩
  | fold q => exact conv.fold within stepped
  | lose q =>
    cases stepped
    refine ⟨hit, Finset.Subset.refl _, conv.retask (fun _ => rfl) ?_⟩
    intro l i _ _
    trivial

theorem run (conv : Converging P start h hit [] s) (recordable : ∀ e ∈ h, Recordable W e)
    (run : Follows Group.step (Within P) s moves s') :
    ∃ hit', hit ⊆ hit' ∧ Converging P start h hit' moves s' := by
  refine run.invariant (P := fun moves s' => ∃ hit', hit ⊆ hit' ∧
    Converging P start h hit' moves s') ⟨hit, Finset.Subset.refl _, conv⟩ ?_
  rintro past before after move ⟨hit', longer, conv⟩ within stepped
  obtain ⟨hit'', longer', conv'⟩ := conv.step recordable within stepped
  exact ⟨hit'', longer.trans longer', conv'⟩

theorem done (conv : Converging P start h hit moves s)
    (enough : ∀ p ∈ P, start p ≤ moves.countP (·.folds p)) :
    P ⊆ hit ∧ h.length ≤ s.leader.commitIndex := by
  have all : P ⊆ hit := by
    intro p inside
    obtain ⟨_, l, i, tracks, _, known | closer⟩ := conv.peer p inside
    · exact known
    · have positive := tracks.next.positive
      have heard := enough p inside
      omega
  refine ⟨all, conv.ledger.commits ?_⟩
  have order := Finset.card_le_card all
  have quorate := conv.quorate
  omega

end Converging

/-- What a peer has heard of the commit index once it has given so many replies. After the first
one every request that it gets was built by a leader that has committed the whole log. -/
def Heard (s : Group V W) (h : List LogEntry) (p replies : Nat) : Prop :=
  replies = 0 ∨ h.length ≤ (s.follower p).commitIndex ∨
    replies = 1 ∧ (s.task p = none ∨
      ∃ args, s.task p = some (.asked args) ∧ h.length ≤ args.leaderCommit)

omit [WalOps W] [Bincode] [Journal W] in
theorem Heard.kept {n : Nat} (heard : Heard s h p n) (follower : s'.follower p = s.follower p)
    (task : s'.task p = s.task p ∨ s'.task p = none) : Heard s' h p n := by
  rcases heard with none | told | ⟨one, waits⟩
  · exact .inl none
  · exact .inr (.inl (follower ▸ told))
  · refine .inr (.inr ⟨one, ?_⟩)
    rcases task with same | elsewhere
    · rw [same]
      exact waits
    · exact .inl elsewhere

omit [Journal W] in
theorem fold_ends (stepped : Group.step s (.fold q) = some s') :
    (∃ args reply, s.task q = some (.answered args reply)) ∧ s'.follower = s.follower ∧
      s'.task q = none ∧ ∀ p, p ≠ q → s'.task p = s.task p ∨ s'.task p = none := by
  simp only [Group.step] at stepped
  split at stepped
  · rename_i args reply answered
    refine ⟨⟨args, reply, answered⟩, ?_⟩
    split_ifs at stepped <;> cases stepped
    · exact ⟨rfl, rfl, fun _ _ => .inr rfl⟩
    · exact ⟨rfl, rfl, fun _ _ => .inr rfl⟩
    · exact ⟨rfl, Function.update_self .., fun p other => .inl (Function.update_of_ne other _ _)⟩
  · cases stepped

theorem Heard.step {P hit : Finset Nat} {start : Nat → Nat} {past : List Move}
    (conv : Converging P start h hit past s) (recordable : ∀ e ∈ h, Recordable W e)
    (all : P ⊆ hit) (known : h.length ≤ s.leader.commitIndex) (inside : p ∈ P)
    (heard : Heard s h p (moves.countP (·.folds p)))
    (stepped : Group.step s move = some s') :
    Heard s' h p ((moves ++ [move]).countP (·.folds p)) := by
  cases move with
  | build q =>
    rw [Converging.count_other rfl]
    simp only [Group.step] at stepped
    split at stepped
    · split_ifs at stepped
      cases stepped
      by_cases here : p = q
      · subst here
        rcases heard with none | told | ⟨one, _⟩
        · exact .inl none
        · exact .inr (.inl told)
        · exact .inr (.inr ⟨one, .inr ⟨_, Function.update_self .., known⟩⟩)
      · exact heard.kept rfl (.inl (Function.update_of_ne here _ _))
    · cases stepped
  | deliver q clock =>
    rw [Converging.count_other rfl]
    simp only [Group.step] at stepped
    split at stepped
    · rename_i args asked
      by_cases here : p = q
      · subst here
        obtain ⟨_, l, i, tracks, has, _⟩ := conv.peer p inside
        obtain ⟨reply, follower, l', handled, _, _, knows⟩ := tracks.deliver recordable asked clock
        rw [handled] at stepped
        cases stepped
        have learns := knows (has (all inside))
        rcases heard with none | told | ⟨_, idle | ⟨args', same, said⟩⟩
        · exact .inl none
        · exact .inr (.inl (by simpa using learns (.inl told)))
        · rw [asked] at idle
          cases idle
        · rw [asked] at same
          cases same
          exact .inr (.inl (by simpa using learns (.inr said)))
      · split at stepped <;> cases stepped <;>
          exact heard.kept (Function.update_of_ne here _ _) (.inl (Function.update_of_ne here _ _))
    · cases stepped
  | fold q =>
    obtain ⟨⟨args, reply, answered⟩, follower, ended, others⟩ := fold_ends stepped
    by_cases here : p = q
    · subst here
      rw [List.countP_append, List.countP_singleton, if_pos (by simp [Move.folds])]
      rcases heard with none | told | ⟨_, idle | ⟨args', same, _⟩⟩
      · exact .inr (.inr ⟨by omega, .inl ended⟩)
      · exact .inr (.inl (follower ▸ told))
      · rw [answered] at idle
        cases idle
      · rw [answered] at same
        cases same
    · rw [Converging.count_other (by simp [Move.folds, Ne.symm here])]
      exact heard.kept (by rw [follower]) (others p here)
  | lose q =>
    rw [Converging.count_other rfl]
    cases stepped
    by_cases here : p = q
    · subst here
      exact heard.kept rfl (.inr (Function.update_self ..))
    · exact heard.kept rfl (.inl (Function.update_of_ne here _ _))

theorem Converging.tell {P hit : Finset Nat} {start : Nat → Nat} {past : List Move}
    (conv : Converging P start h hit past s) (recordable : ∀ e ∈ h, Recordable W e) (all : P ⊆ hit)
    (run : Follows Group.step (Within P) s moves s') :
    ∃ hit' past', P ⊆ hit' ∧ Converging P start h hit' past' s' ∧
      ∀ p ∈ P, Heard s' h p (moves.countP (·.folds p)) := by
  refine run.invariant (P := fun moves s' => ∃ hit' past', P ⊆ hit' ∧
    Converging P start h hit' past' s' ∧ ∀ p ∈ P, Heard s' h p (moves.countP (·.folds p)))
    ⟨hit, past, all, conv, fun _ _ => .inl rfl⟩ ?_
  rintro moves before after move ⟨hit, past, all, conv, heard⟩ within stepped
  obtain ⟨hit', longer, conv'⟩ := conv.step recordable within stepped
  refine ⟨hit', _, all.trans longer, conv', ?_⟩
  intro p inside
  have order := Finset.card_le_card all
  have quorate := conv.quorate
  have known := conv.ledger.commits (by omega)
  exact Heard.step conv recordable all known inside (heard p inside) stepped

theorem Converging.completes {P : Finset Nat} {start : Nat → Nat} {first second : List Move}
    {t : Group V W} (conv : Converging P start h ∅ [] s) (recordable : ∀ e ∈ h, Recordable W e)
    (replicate : Follows Group.step (Within P) s first t)
    (enough : ∀ p ∈ P, start p ≤ first.countP (·.folds p))
    (inform : Follows Group.step (Within P) t second s')
    (twice : ∀ p ∈ P, 2 ≤ second.countP (·.folds p)) :
    h.length ≤ s'.leader.commitIndex ∧ s'.leader.Holds h ∧
      ∀ p ∈ P, h.length ≤ (s'.follower p).commitIndex ∧ ∃ l, (s'.follower p).Holds l ∧ h <+: l := by
  obtain ⟨hit, _, conv⟩ := conv.run recordable replicate
  obtain ⟨all, _⟩ := conv.done enough
  obtain ⟨hit', past, all', conv', heard⟩ := conv.tell recordable all inform
  have order := Finset.card_le_card all'
  have quorate := conv'.quorate
  refine ⟨conv'.ledger.commits (by omega), conv'.ledger.holds, ?_⟩
  intro p inside
  obtain ⟨_, l, i, tracks, has, _⟩ := conv'.peer p inside
  constructor
  · have replies := twice p inside
    rcases heard p inside with none | told | ⟨one, _⟩
    · omega
    · exact told
    · omega
  · exact ⟨l, tracks.repairing.trails.holds, has (all' inside)⟩

end Group
end WalKv
