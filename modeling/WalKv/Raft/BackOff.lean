import WalKv.Raft.Redelivery

/-! A leader finds out how far a follower's log agrees with its own: it asks at the next
index it has for it, and goes back after every refusal. -/
namespace WalKv

/-- A log that matches the leader's log `h`; what the snapshot covers is a part of `h`. -/
structure Trails {W : Type} (core : RaftCore W) (h l : List LogEntry) : Prop where
  holds : core.Holds l
  covered : l.take core.snapshot.lastIncludedIndex <+: h
  matching : Consensus.Matching l h

namespace Trails
open RaftCore
variable {W : Type} {core core' : RaftCore W} {h l x : List LogEntry} {args : AppendEntriesArgs}
  {clock : Clock}

theorem sameLog (trails : Trails core h l) (same : SameLog core core') : Trails core' h l :=
  ⟨same.holds trails.holds, same.snapshot ▸ trails.covered, trails.matching⟩

theorem passes_iff (trails : Trails core h l) (built : Built h args) :
    core.Passes args ↔ h.take args.prevLogIndex <+: l := by
  have shown : args.prevLogIndex ≤ h.length := (Nat.le_add_right _ _).trans built.within
  have bound := trails.holds.compacted
  rw [Passes, trails.holds.lastLogIndex]
  constructor
  · rintro ⟨reach, passes⟩
    have agree : l.take args.prevLogIndex = h.take args.prevLogIndex := by
      rcases Nat.lt_or_ge args.prevLogIndex core.snapshot.lastIncludedIndex with below | above
      · have inside : args.prevLogIndex ≤ (l.take core.snapshot.lastIncludedIndex).length := by
          rw [List.length_take]
          omega
        rw [Consensus.prefix_take trails.covered inside, List.take_take, Nat.min_eq_left below.le]
      · rw [trails.holds.termAt above reach, built.prev] at passes
        exact trails.matching.take_eq reach shown (by simpa using passes)
    exact agree ▸ List.take_prefix _ _
  · intro inside
    have length : (h.take args.prevLogIndex).length = args.prevLogIndex := by
      rw [List.length_take]
      exact Nat.min_eq_left shown
    have reach : args.prevLogIndex ≤ l.length := length ▸ inside.length_le
    refine ⟨reach, (trails.holds.matches_iff reach).mpr ?_⟩
    rcases Nat.lt_or_ge args.prevLogIndex core.snapshot.lastIncludedIndex with below | above
    · exact .inl below
    · right
      rw [trails.holds.termAt above reach, built.prev, Consensus.prefix_termAt inside length.ge,
        Consensus.termAt_take h (Nat.le_refl _)]

section Log
variable [WalOps W] [Bincode]

omit [WalOps W] [Bincode] in
theorem not_differs (built : Built h args) (own : x <+: l) (shown : x <+: h) {keep j : Nat}
    (inside : args.prevLogIndex + j < x.length) :
    ¬ Consensus.Differs keep l args.prevLogIndex args.entries j := by
  rintro ⟨_, e, found, other⟩
  have here : x[args.prevLogIndex + j]? = some x[args.prevLogIndex + j] :=
    List.getElem?_eq_getElem inside
  rw [built.entries, List.getElem?_drop] at found
  have same := Consensus.prefix_getElem? (List.take_prefix _ _) found
  rw [Consensus.prefix_getElem? shown here] at same
  exact other _ (Consensus.prefix_getElem? own here) (congrArg LogEntry.term (Option.some.inj same))

theorem store (trails : Trails core h l) (built : Built h args) (indexed : Indexed h)
    (passes : h.take args.prevLogIndex <+: l) :
    ∃ l', Trails (RaftCore.store args core).2 h l' ∧ (∀ x, x <+: l → x <+: h → x <+: l') ∧
      ∀ reply, (RaftCore.store args core).1 = .ok reply →
        reply.success = true ∧ l' = Consensus.merge l (h.take args.lastSent) := by
  have shown : args.prevLogIndex ≤ h.length := (Nat.le_add_right _ _).trans built.within
  have length : (h.take args.prevLogIndex).length = args.prevLogIndex := by
    rw [List.length_take]
    exact Nat.min_eq_left shown
  have reach : args.prevLogIndex ≤ l.length := length ▸ passes.length_le
  have agree : l.take args.prevLogIndex = h.take args.prevLogIndex := by
    rw [Consensus.prefix_take passes length.ge, List.take_take, Nat.min_self]
  have spliced (m : Nat) (order : args.prevLogIndex ≤ m) (within : m ≤ h.length) :
      Consensus.splice core.snapshot.lastIncludedIndex l args.prevLogIndex
        ((h.take m).drop args.prevLogIndex) = Consensus.merge l (h.take m) :=
    Consensus.splice_merge trails.matching agree trails.covered reach order within
      trails.holds.compacted
  obtain ⟨l', held, only, part, outcome⟩ :=
    trails.holds.store reach (built.contiguous indexed)
  have snapshot : (RaftCore.store args core).2.snapshot = core.snapshot := by rw [only]
  have common : ∀ x, x <+: l → x <+: h → x <+: l' := by
    intro x own shown
    have same := part.keeps own.length_le fun j inside => not_differs built own shown inside
    rw [Consensus.prefix_take own (Nat.le_refl _), List.take_length] at same
    exact same ▸ List.take_prefix _ _
  refine ⟨l', ⟨held, ?_, ?_⟩, common, fun reply replied => ?_⟩
  · have inside := common _ (List.take_prefix _ _) trails.covered
    have length : core.snapshot.lastIncludedIndex ≤
        (l.take core.snapshot.lastIncludedIndex).length := by
      rw [List.length_take]
      exact Nat.le_min.mpr ⟨Nat.le_refl _, trails.holds.compacted⟩
    rw [snapshot, Consensus.prefix_take inside length, List.take_take, Nat.min_self]
    exact trails.covered
  · cases part with
    | spliced j =>
      have order : args.prevLogIndex ≤ min (args.prevLogIndex + j) args.lastSent :=
        Nat.le_min.mpr ⟨Nat.le_add_right _ _, Nat.le_add_right _ _⟩
      rw [built.entries, List.take_drop, List.take_take,
        spliced _ order ((Nat.min_le_right _ _).trans built.within)]
      exact trails.matching.merge _
    | cut _ => exact trails.matching.shorter (List.take_prefix _ _)
  · rcases outcome with ⟨⟨stop, stopped⟩, _⟩ | ⟨stored, same, _⟩
    · rw [stopped] at replied
      cases replied
    · rw [stored] at replied
      cases replied
      refine ⟨rfl, same.trans ?_⟩
      rw [built.entries]
      exact spliced _ (Nat.le_add_right _ _) built.within

theorem handle (trails : Trails core h l) (built : Built h args) (indexed : Indexed h)
    (clock : Clock) :
    ∃ l', Trails (handleAppendEntries clock args core).2 h l' ∧
      (∀ x, x <+: l → x <+: h → x <+: l') ∧
      (handleAppendEntries clock args core).2.hard.currentTerm =
        max core.hard.currentTerm args.term ∧
      ∀ reply, (handleAppendEntries clock args core).1 = .ok reply →
        reply.success = true ∧ core.hard.currentTerm ≤ args.term ∧
            l' = Consensus.merge l (h.take args.lastSent) ∨
          reply.success = false ∧ reply.term = max core.hard.currentTerm args.term ∧
            (core.hard.currentTerm ≤ args.term → ¬ h.take args.prevLogIndex <+: l) := by
  obtain ⟨seen, same, term, ⟨stays, refused⟩ | ⟨stored, passes, current⟩⟩ :=
    handleAppendEntries_cases clock args core
  · have trails' := trails.sameLog same
    refine ⟨l, stays ▸ trails', fun _ own _ => own, stays ▸ term, fun reply replied => .inr ?_⟩
    obtain ⟨failed, told, check⟩ := refused reply replied
    exact ⟨failed, told.trans term, fun current inside =>
      check current ((trails'.passes_iff built).mpr inside)⟩
  · have trails' := trails.sameLog same
    obtain ⟨l', trails'', common, ended⟩ :=
      trails'.store built indexed ((trails'.passes_iff built).mp passes)
    have hard : (RaftCore.store args seen).2.hard = seen.hard := by rw [store_only args seen]
    rw [stored]
    refine ⟨l', trails'', common, hard ▸ term, fun reply replied => .inl ?_⟩
    obtain ⟨success, merged⟩ := ended reply replied
    exact ⟨success, current, merged⟩

end Log
end Trails

namespace RaftCore
variable {W : Type} [WalOps W] [Bincode] [Journal W] {core core' : RaftCore W}
  {args : AppendEntriesArgs}

/-- A node whose disk works and whose timer can be armed. -/
structure Working (core : RaftCore W) : Prop where
  grounded : ∃ l, core.Grounded l false
  durable : core.hardPath.outcomes = []
  timed : asMillis core.electionTimeout.start < asMillis core.electionTimeout.stop

theorem Working.congr (working : core.Working) (same : SameLog core core')
    (durable : core'.hardPath.outcomes = [])
    (timeout : core'.electionTimeout = core.electionTimeout) : core'.Working := by
  obtain ⟨l, grounded⟩ := working.grounded
  exact ⟨⟨l, grounded.congr same.snapshot same.entries same.log⟩, durable,
    timeout ▸ working.timed⟩

theorem Working.recognised (working : core.Working) (args : AppendEntriesArgs) (clock : Clock) :
    ((core.recognised args).armed clock).Working := by
  refine working.congr (recognised_logPart args clock core) ?_ ?_
  · unfold armed RaftCore.recognised observe
    split_ifs
    · rfl
    · exact working.durable
  · unfold armed RaftCore.recognised observe
    split_ifs <;> rfl

theorem Working.replies (working : core.Working) (contiguous : args.Contiguous)
    (recordable : ∀ e ∈ args.entries, Recordable W e) (clock : Clock) :
    ∃ reply core', handleAppendEntries clock args core = (.ok reply, core') ∧ core'.Working ∧
      reply.term = core'.hard.currentTerm ∧
      ∀ k ≤ core'.lastLogIndex,
        k ≤ core.commitIndex ∨ reply.success = true ∧ k ≤ args.leaderCommit →
        k ≤ core'.commitIndex := by
  rw [handleAppendEntries_durable working.durable working.timed]
  have commit : ((core.recognised args).armed clock).commitIndex = core.commitIndex := by
    unfold armed RaftCore.recognised observe
    split_ifs <;> rfl
  have recognised := working.recognised args clock
  revert recognised commit
  generalize (core.recognised args).armed clock = seen
  intro commit recognised
  have refused (hint : Nat) : ∀ k ≤ seen.lastLogIndex,
      k ≤ core.commitIndex ∨ (seen.reject hint).success = true ∧ k ≤ args.leaderCommit →
      k ≤ seen.commitIndex := by
    simp [reject, commit]
  rw [matchAndStore_run]
  split_ifs with stale ahead differs
  · exact ⟨_, _, rfl, working, rfl, by simp [reject]⟩
  · exact ⟨_, _, rfl, recognised, rfl, refused _⟩
  · exact ⟨_, _, rfl, recognised, rfl, refused _⟩
  · obtain ⟨l, grounded⟩ := recognised.grounded
    rw [grounded.holds.lastLogIndex] at ahead
    obtain ⟨core', stored, only, grounded', committed⟩ :=
      grounded.store (Nat.le_of_not_lt ahead) contiguous recordable rfl
    refine ⟨_, core', stored, ⟨⟨_, grounded'⟩, ?_, ?_⟩, ?_, ?_⟩
    · rw [only]
      exact recognised.durable
    · rw [only]
      exact recognised.timed
    · rw [only]
    · intro k within known
      rw [grounded'.holds.lastLogIndex] at within
      rw [committed, commit]
      split_ifs with raised
      · have claimed : k ≤ args.leaderCommit := by
          rcases known with before | ⟨_, said⟩
          · omega
          · exact said
        exact Nat.le_min.mpr ⟨claimed, within⟩
      · rcases known with before | ⟨_, said⟩
        · exact before
        · omega

end RaftCore

/-- A leader and one of its followers. -/
structure Pairing (V W : Type) where
  leader : RaftCore V
  follower : RaftCore W

namespace Pairing
open RaftCore
variable {V W : Type} [WalOps W] [Bincode] [Journal W] {s : Pairing V W} {h l : List LogEntry}
  {peer i : Nat} {clock : Clock} {clocks : Nat → Clock}

/-- The leader builds a request, the follower handles it, and the leader takes the reply. -/
def round (peer : Nat) (clock : Clock) (s : Pairing V W) :
    Option AppendEntriesReply × Pairing V W :=
  let args := s.leader.buildAppendEntries peer
  match handleAppendEntries clock args s.follower with
  | (.ok reply, follower) =>
    (some reply, ⟨s.leader.onAppendEntriesReply peer args.lastSent reply, follower⟩)
  | (.error _, follower) => (none, { s with follower })

def rounds (peer : Nat) (clocks : Nat → Clock) (s : Pairing V W) : Nat → Pairing V W
  | 0 => s
  | n + 1 => (round peer (clocks n) (rounds peer clocks s n)).2

/-- What the follower replies in round `n`. -/
def replyAt (peer : Nat) (clocks : Nat → Clock) (s : Pairing V W) (n : Nat) :
    Option AppendEntriesReply :=
  (round peer (clocks n) (rounds peer clocks s n)).1

/-- Neither side has a snapshot, and the logs `h` and `l` match. -/
structure Repairing (s : Pairing V W) (h l : List LogEntry) : Prop where
  leads : s.leader.role = .leader
  holds : s.leader.Holds h
  plain : s.leader.snapshot.lastIncludedIndex = 0
  bare : s.follower.snapshot.lastIncludedIndex = 0
  current : s.follower.hard.currentTerm ≤ s.leader.hard.currentTerm
  working : s.follower.Working
  trails : Trails s.follower h l

/-- The next index of the peer lies in the leader's log or right behind it. -/
structure NextAt (s : Pairing V W) (peer i : Nat) : Prop where
  known : s.leader.nextIndex peer = some i
  positive : 1 ≤ i
  within : i ≤ s.leader.lastLogIndex + 1

theorem Repairing.folded {s' : Pairing V W} {l' : List LogEntry} (repairing : s.Repairing h l)
    (only : s'.leader = { s.leader with
      commitIndex := s'.leader.commitIndex
      matchIndex := s'.leader.matchIndex
      nextIndex := s'.leader.nextIndex })
    (bare : s'.follower.snapshot = s.follower.snapshot)
    (current : s'.follower.hard.currentTerm ≤ s.leader.hard.currentTerm)
    (working : s'.follower.Working) (trails : Trails s'.follower h l') : s'.Repairing h l' where
  leads := by rw [only]; exact repairing.leads
  holds := repairing.holds.congr (by rw [only]) (by rw [only])
  plain := by rw [only]; exact repairing.plain
  bare := by rw [bare]; exact repairing.bare
  current := by rw [only]; exact current
  working
  trails

theorem Repairing.round (repairing : s.Repairing h l) (next : s.NextAt peer i)
    (recordable : ∀ e ∈ h, Recordable W e) (clock : Clock) :
    ∃ reply l' i', (s.round peer clock).1 = some reply ∧
      (s.round peer clock).2.Repairing h l' ∧ (s.round peer clock).2.NextAt peer i' ∧
      (reply.success = false ∧ i' < i ∨ reply.success = true ∧ h <+: l' ∧
        (s.round peer clock).2.leader.matchIndex peer = some h.length) := by
  have last := repairing.holds.lastLogIndex
  have within := next.within
  have positive := next.positive
  have plain := repairing.plain
  have indexed := repairing.holds.indexed
  have asked : (s.leader.nextIndex peer).getD (s.leader.lastLogIndex + 1) = i := by
    rw [next.known]
    rfl
  obtain ⟨built, prev, covers⟩ := repairing.holds.built asked (by omega) (by omega)
  have taken : ∀ e ∈ (s.leader.buildAppendEntries peer).entries, Recordable W e := by
    intro e member
    rw [built.entries] at member
    exact recordable e (List.mem_of_mem_take (List.mem_of_mem_drop member))
  obtain ⟨reply, follower, handled, working, _⟩ :=
    repairing.working.replies (built.contiguous indexed) taken clock
  obtain ⟨l', trails, _, adopted, outcome⟩ := repairing.trails.handle built indexed clock
  have bare := handleAppendEntries_snapshot clock (s.leader.buildAppendEntries peer) s.follower
  rw [handled] at trails adopted outcome bare
  have sender : (s.leader.buildAppendEntries peer).term = s.leader.hard.currentTerm := rfl
  have current : follower.hard.currentTerm ≤ s.leader.hard.currentTerm := by
    have before := repairing.current
    simp only at adopted
    omega
  have ran : s.round peer clock =
      (some reply, ⟨s.leader.onAppendEntriesReply peer h.length reply, follower⟩) := by
    simp only [Pairing.round, handled, covers]
  rw [ran]
  rcases outcome reply rfl with ⟨success, _, merged⟩ | ⟨failed, _, behind⟩
  · have repaired : h <+: l' := by
      rw [merged, covers, List.take_length]
      exact Consensus.shown_prefix_merge _ _
    have same : s.leader.onAppendEntriesReply peer h.length reply = _ :=
      onAppendEntriesReply_taken repairing.leads success
    have repairing' : Repairing ⟨s.leader.onAppendEntriesReply peer h.length reply, follower⟩ h l' :=
      repairing.folded (by rw [same]) bare current working trails
    refine ⟨reply, l', h.length + 1, rfl, repairing', ⟨?_, by omega, ?_⟩,
      .inr ⟨success, repaired, ?_⟩⟩
    · rw [same]
      exact Function.update_self ..
    · rw [repairing'.holds.lastLogIndex]
    · rw [same]
      exact Function.update_self ..
  · obtain ⟨i', low, high, same⟩ : ∃ i', _ ∧ _ ∧
        s.leader.onAppendEntriesReply peer h.length reply = _ :=
      onAppendEntriesReply_backs repairing.leads failed
    have repairing' : Repairing ⟨s.leader.onAppendEntriesReply peer h.length reply, follower⟩ h l' :=
      repairing.folded (by rw [same]) bare current working trails
    have beyond : 1 < i := by
      by_contra bottom
      have none : (s.leader.buildAppendEntries peer).prevLogIndex = 0 := by omega
      refine behind (sender ▸ repairing.current) ?_
      rw [none]
      exact List.nil_prefix
    rw [next.known, Option.getD_some] at high
    refine ⟨reply, l', i', rfl, repairing', ⟨?_, low, ?_⟩, .inl ⟨failed, by omega⟩⟩
    · rw [same]
      exact Function.update_self ..
    · rw [repairing'.holds.lastLogIndex]
      omega

theorem Repairing.rounds (repairing : s.Repairing h l) (next : s.NextAt peer i)
    (recordable : ∀ e ∈ h, Recordable W e) (clocks : Nat → Clock) (n : Nat) :
    ∃ l' i', (s.rounds peer clocks n).Repairing h l' ∧ (s.rounds peer clocks n).NextAt peer i' ∧
      ((∃ k < n, ∃ reply, s.replyAt peer clocks k = some reply ∧ reply.success = true) ∨
        i' + n ≤ i) := by
  induction n with
  | zero => exact ⟨l, i, repairing, next, .inr (Nat.le_refl _)⟩
  | succ n ih =>
    obtain ⟨l', i', repairing', next', progress⟩ := ih
    obtain ⟨reply, l'', i'', replied, repairing'', next'', outcome⟩ :=
      repairing'.round next' recordable (clocks n)
    refine ⟨l'', i'', repairing'', next'', ?_⟩
    rcases progress with ⟨k, earlier, done⟩ | closer
    · exact .inl ⟨k, by omega, done⟩
    · rcases outcome with ⟨_, back⟩ | ⟨success, _⟩
      · exact .inr (by omega)
      · exact .inl ⟨n, by omega, reply, replied, success⟩

/-- Every refused round lowers the next index, and a round is accepted before it has come down
to nothing. The follower then has the leader's log, and the leader knows. -/
theorem backOff_repairs (leads : s.leader.role = .leader) (holds : s.leader.Holds h)
    (grounded : s.follower.Grounded l false) (plain : s.leader.snapshot.lastIncludedIndex = 0)
    (bare : s.follower.snapshot.lastIncludedIndex = 0) (matching : Consensus.Matching l h)
    (current : s.follower.hard.currentTerm ≤ s.leader.hard.currentTerm)
    (durable : s.follower.hardPath.outcomes = [])
    (timed : asMillis s.follower.electionTimeout.start < asMillis s.follower.electionTimeout.stop)
    (recordable : ∀ e ∈ h, Recordable W e) (next : s.NextAt peer i) (clocks : Nat → Clock) :
    (∀ n, ∃ reply before after, s.replyAt peer clocks n = some reply ∧
      (s.rounds peer clocks n).leader.nextIndex peer = some before ∧
      (s.rounds peer clocks (n + 1)).leader.nextIndex peer = some after ∧
      (reply.success = false → after < before)) ∧
    ∃ n < i, ∃ reply, s.replyAt peer clocks n = some reply ∧ reply.success = true ∧
      (∀ k, 1 ≤ k → k ≤ s.leader.lastLogIndex →
        (s.rounds peer clocks (n + 1)).follower.entryAt k = s.leader.entryAt k) ∧
      (s.rounds peer clocks (n + 1)).leader.matchIndex peer = some s.leader.lastLogIndex := by
  have start : s.Repairing h l := ⟨leads, holds, plain, bare, current,
    ⟨⟨l, grounded⟩, durable, timed⟩, grounded.holds, by rw [bare]; exact List.nil_prefix, matching⟩
  constructor
  · intro n
    obtain ⟨l', i', repairing, next', _⟩ := start.rounds next recordable clocks n
    obtain ⟨reply, _, i'', replied, _, next'', outcome⟩ :=
      repairing.round next' recordable (clocks n)
    refine ⟨reply, i', i'', replied, next'.known, next''.known, fun failed => ?_⟩
    rcases outcome with ⟨_, back⟩ | ⟨success, _⟩
    · exact back
    · rw [failed] at success
      cases success
  · obtain ⟨_, i', _, next', ⟨n, early, reply, replied, success⟩ | closer⟩ :=
      start.rounds next recordable clocks i
    · obtain ⟨l', _, repairing, next', _⟩ := start.rounds next recordable clocks n
      obtain ⟨reply', l'', _, replied', repairing'', _, outcome⟩ :=
        repairing.round next' recordable (clocks n)
      cases Option.some.inj (replied.symm.trans replied')
      rcases outcome with ⟨failed, _⟩ | ⟨_, repaired, matched⟩
      · rw [failed] at success
        cases success
      · refine ⟨n, early, reply, replied, success, fun k low high => ?_, ?_⟩
        · rw [holds.lastLogIndex] at high
          have here : h[k - 1]? = some h[k - 1] := List.getElem?_eq_getElem (by omega)
          have below : (s.rounds peer clocks (n + 1)).follower.snapshot.lastIncludedIndex < k := by
            rw [show (s.rounds peer clocks (n + 1)).follower.snapshot.lastIncludedIndex = 0 from
              repairing''.bare]
            omega
          have found := repairing''.trails.holds.entryAt below
          rw [holds.entryAt (by omega), here]
          exact found.trans (Consensus.prefix_getElem? repaired here)
        · rw [holds.lastLogIndex]
          exact matched
    · have positive := next'.positive
      omega

end Pairing

namespace Pairing
open RaftCore

/-- The follower has two entries that the leader does not have, and the leader asks at its
own end first. -/
def diverged : Pairing FlatLog FlatLog where
  leader :=
    { assemble ⟨0, 0⟩ ((Config.new 1).withPeers [⟨2, ""⟩]) HardFile.absent default FlatLog.empty
        [⟨1, 1, .noop⟩, ⟨2, 2, .noop⟩] with
      hard := ⟨2, some 1⟩
      role := .leader
      nextIndex := fun _ => some 3 }
  follower :=
    assemble ⟨0, 0⟩ ((Config.new 2).withPeers [⟨1, ""⟩]) HardFile.absent default
      ⟨1, [⟨1, 1, .noop⟩, ⟨1, 2, .put [9] [9]⟩, ⟨1, 3, .noop⟩].map fun e =>
        (Bincode.serialize e).toOption.getD []⟩
      [⟨1, 1, .noop⟩, ⟨1, 2, .put [9] [9]⟩, ⟨1, 3, .noop⟩]

theorem diverged_matching :
    Consensus.Matching diverged.follower.entries diverged.leader.entries := by
  intro i a b own other same
  rcases i with _ | _ | i
  · rfl
  · cases own
    cases other
    cases same
  · cases other

theorem backOff_repairs_diverged : ∃ n < 3, ∃ reply,
    diverged.replyAt 2 (fun _ => ⟨0, 0⟩) n = some reply ∧ reply.success = true ∧
      (diverged.rounds 2 (fun _ => ⟨0, 0⟩) (n + 1)).leader.matchIndex 2 = some 2 := by
  have grounded : diverged.follower.Grounded diverged.follower.entries false :=
    ⟨by decide +kernel, diverged.follower.log, rfl, by decide +kernel, by decide⟩
  have recordable : ∀ e ∈ diverged.leader.entries, Recordable FlatLog e := by
    simp only [diverged, assemble, List.mem_cons, List.not_mem_nil, or_false, forall_eq_or_imp,
      forall_eq]
    exact ⟨⟨_, rfl, trivial⟩, ⟨_, rfl, trivial⟩⟩
  obtain ⟨_, n, early, reply, replied, success, _, matched⟩ := backOff_repairs rfl
    (by decide +kernel : diverged.leader.Holds diverged.leader.entries) grounded rfl rfl
    diverged_matching (by decide) rfl (by decide) recordable ⟨rfl, by decide, by decide⟩
    fun _ => ⟨0, 0⟩
  exact ⟨n, early, reply, replied, success, matched⟩

end Pairing
end WalKv
