import WalKv.Cluster.Simulation.Leading

/-! Actions on the receiving side: storing what a leader shows, handing out
committed entries, compacting, and restarting from disk. With them every action
of the cluster is a move of the protocol. -/
namespace WalKv
open RaftCore Function
open Consensus (Led Known Extends Invariant lastTerm UpToDate Step Steps)

variable [Bincode] {m : Membership} {c : Cluster} {a a' : Spec} {n : Nat} {e : Effect}

/-- A node that passes the matching check of a request agrees with its leader up
to the previous index. Below its snapshot it cannot check, but what the snapshot
covers is committed and therefore in the leader's log. -/
theorem agrees_up_to_prev (rel : Refines m c a) {core : Core} {args : AppendEntriesArgs}
    (sound : core.Sound (a.log n)) (shown : Shows a args) (later : a.term n ≤ args.term)
    (covered : core.snapshot.lastIncludedIndex ≤ a.commit n)
    (reach : args.prevLogIndex ≤ (a.log n).length)
    (passes : ¬ (core.termAt args.prevLogIndex).any (· ≠ args.prevLogTerm) = true) :
    (a.log n).take args.prevLogIndex = (a.hist args.term).take args.prevLogIndex := by
  have inv := rel.invariant
  rcases Nat.lt_or_ge args.prevLogIndex core.snapshot.lastIncludedIndex with below | above
  · have inside := ((rel.known n).shorter (below.le.trans covered)).in_leader inv shown.led later
    have length : ((a.log n).take args.prevLogIndex).length = args.prevLogIndex := by simpa
    rw [Consensus.prefix_take inside length.ge, List.take_take, Nat.min_self]
  · rw [sound.holds.termAt above reach] at passes
    have stamps : Consensus.termAt (a.log n) args.prevLogIndex =
        Consensus.termAt (a.hist args.term) args.prevLogIndex := by
      rw [← shown.prev]
      simpa using passes
    exact ((inv.rooted n).matching_logs (inv.rooted_hist shown.led)).take_eq reach
      ((Nat.le_add_right _ _).trans shown.within) stamps

/-- What storing a request leaves in the log: its own part of the leader's log,
and more only if the node already had that. -/
theorem spliced_log (rel : Refines m c a) {core : Core} {args : AppendEntriesArgs}
    (sound : core.Sound (a.log n)) (shown : Shows a args) (later : a.term n ≤ args.term)
    (covered : core.snapshot.lastIncludedIndex ≤ a.commit n)
    (reach : args.prevLogIndex ≤ (a.log n).length)
    (passes : ¬ (core.termAt args.prevLogIndex).any (· ≠ args.prevLogTerm) = true) :
    Consensus.splice core.snapshot.lastIncludedIndex (a.log n) args.prevLogIndex args.entries =
      Consensus.merge (a.log n) ((a.hist args.term).take args.lastSent) := by
  have inv := rel.invariant
  rw [shown.entries]
  exact Consensus.splice_merge ((inv.rooted n).matching_logs (inv.rooted_hist shown.led))
    (agrees_up_to_prev rel sound shown later covered reach passes)
    (((rel.known n).shorter covered).in_leader inv shown.led later) reach
    (Nat.le_add_right _ _) shown.within sound.holds.compacted

theorem Shows.contiguous (rel : Refines m c a) {args : AppendEntriesArgs} (shown : Shows a args)
    (j : Nat) (x : LogEntry) (found : args.entries[j]? = some x) :
    x.index = args.prevLogIndex + j + 1 := by
  rw [shown.entries] at found
  exact ((rel.storable shown.led).indexed.shorter (List.take_prefix _ _)).drop _ j x found

theorem Shows.encodable (rel : Refines m c a) {args : AppendEntriesArgs} (shown : Shows a args)
    (x : LogEntry) (member : x ∈ args.entries) : Encodable x := by
  rw [shown.entries] at member
  exact (rel.storable shown.led).encodable x (List.mem_of_mem_take (List.mem_of_mem_drop member))

omit [Bincode] in
theorem recognised_ledger (core : Core) (args : AppendEntriesArgs) (clock : Clock) :
    SameLedger core ((core.recognised args).armed clock) := by
  unfold recognised
  split_ifs
  · have ledger := observe_ledger core args.term (some args.leaderId)
    exact ⟨ledger.log, ledger.entries, ledger.snapshot, ledger.commitIndex, ledger.lastApplied⟩
  · exact ⟨rfl, rfl, rfl, rfl, rfl⟩

/-- What a request that is stored leaves behind: the node follows the sender, its
log is merged with what was shown, and it knows at least as much to be committed
as before. -/
structure Stored (a : Spec) (n : Nat) (args : AppendEntriesArgs) (core core' : Core) : Prop where
  current : core.hard.currentTerm ≤ args.term
  term : core'.hard.currentTerm = args.term
  role : core'.role = .follower
  snapshot : core'.snapshot = core.snapshot
  lastApplied : core'.lastApplied = core.lastApplied
  agree : (a.log n).take args.prevLogIndex = (a.hist args.term).take args.prevLogIndex
  sound : core'.Sound (Consensus.merge (a.log n) ((a.hist args.term).take args.lastSent))
  raised : core.commitIndex ≤ core'.commitIndex
  known : Known (Consensus.accept a n args.term args.lastSent) n core'.commitIndex

theorem store_stored (rel : Refines m c a) (member : n ∈ m.members) {seen : Core}
    {args : AppendEntriesArgs} (shown : Shows a args)
    (current : (c.core n).hard.currentTerm ≤ args.term) (ledger : SameLedger (c.core n) seen)
    (term : seen.hard.currentTerm = args.term) (role : seen.role = .follower)
    (reach : args.prevLogIndex ≤ seen.lastLogIndex)
    (passes : ¬ (seen.termAt args.prevLogIndex).any (· ≠ args.prevLogTerm) = true) :
    ∃ core, store args seen = (.ok ⟨args.term, true, 0⟩, core) ∧
      Stored a n args (c.core n) core := by
  have stands := rel.node n member
  have later : a.term n ≤ args.term := stands.term ▸ current
  have sound : seen.Sound (a.log n) :=
    stands.sound.congr ledger.snapshot ledger.entries ledger.log
  have covered : seen.snapshot.lastIncludedIndex ≤ a.commit n := by
    rw [ledger.snapshot, stands.commit]
    exact stands.compacted.trans stands.applied
  rw [sound.holds.lastLogIndex] at reach
  obtain ⟨core, ran, only, sound', adopted⟩ := sound.store reach (shown.contiguous rel)
    (shown.encodable rel) (spliced_log rel sound shown later covered reach passes).symm
  rw [term] at ran
  have commit : (c.core n).commitIndex ≤ core.commitIndex ∧
      Known (Consensus.accept a n args.term args.lastSent) n core.commitIndex := by
    rw [← ledger.commitIndex]
    split_ifs at adopted with behind
    · have bound : args.leaderCommit ≤
          (Consensus.merge (a.log n) ((a.hist args.term).take args.lastSent)).length := by
        have length := (Consensus.shown_prefix_merge (a.log n)
          ((a.hist args.term).take args.lastSent)).length_le
        have within := shown.within
        have inside := shown.commit
        simp only [List.length_take] at length
        omega
      rw [adopted, Nat.min_eq_left bound]
      exact ⟨behind.le,
        Consensus.known_from_leader rel.invariant shown.led shown.commit shown.known⟩
    · rw [adopted, ledger.commitIndex, ← stands.commit]
      exact ⟨le_rfl, (rel.known n).accept rel.invariant shown.led later⟩
  refine ⟨core, ran, current, ?_, ?_, ?_, ?_,
    agrees_up_to_prev rel sound shown later covered reach passes, sound', commit.1, commit.2⟩
  · rw [only]
    exact term
  · rw [only]
    exact role
  · rw [only]
    exact ledger.snapshot
  · rw [only]
    exact ledger.lastApplied

/-- A request is out of date, or refused by a node that now follows its sender,
or stored. -/
theorem appendEntries_cases (rel : Refines m c a) {call : AppendCall}
    (member : call.dst ∈ m.members) (sent : call ∈ c.appendCalls) (clock : Clock) :
    ∃ core reply, appendEntriesEffect call clock (c.server call.dst) =
      { server := { c.server call.dst with core }
        appendAnswers := [⟨call.dst, call.src, call.args.term, call.args.lastSent, reply⟩] } ∧
      (core = c.core call.dst ∧ reply.success = false ∨
        SameLedger (c.core call.dst) core ∧ reply.success = false ∧ core.role = .follower ∧
          (c.core call.dst).hard.currentTerm ≤ core.hard.currentTerm ∨
        Stored a call.dst call.args (c.core call.dst) core) := by
  have running := (rel.elections.node call.dst member).running
  simp only [appendEntriesEffect, running.handleAppendEntries]
  by_cases stale : call.args.term < (c.core call.dst).hard.currentTerm
  · simp only [if_pos stale]
    exact ⟨_, _, rfl, Or.inl ⟨rfl, rfl⟩⟩
  simp only [if_neg stale]
  have current := Nat.le_of_not_lt stale
  have ledger := recognised_ledger (c.core call.dst) call.args clock
  have term : (((c.core call.dst).recognised call.args).armed clock).hard.currentTerm =
    call.args.term := recognised_term current
  have role : (((c.core call.dst).recognised call.args).armed clock).role = .follower :=
    recognised_role _ _
  revert ledger term role
  generalize ((c.core call.dst).recognised call.args).armed clock = seen
  intro ledger term role
  rw [matchAndStore_run]
  have refused (hint : Nat) : SameLedger (c.core call.dst) seen ∧
      (seen.reject hint).success = false ∧ seen.role = .follower ∧
      (c.core call.dst).hard.currentTerm ≤ seen.hard.currentTerm :=
    ⟨ledger, rfl, role, term ▸ current⟩
  split_ifs with short differs
  · exact ⟨_, _, rfl, Or.inr (Or.inl (refused _))⟩
  · exact ⟨_, _, rfl, Or.inr (Or.inl (refused _))⟩
  · obtain ⟨core, ran, stored⟩ := store_stored rel member (rel.sent call sent) current ledger term
      role (Nat.le_of_not_lt short) differs
    rw [ran]
    exact ⟨_, _, rfl, Or.inr (Or.inr stored)⟩

theorem appendEntries_moves (rel : Refines m c a) {call : AppendCall}
    (member : call.dst ∈ m.members) (sent : call ∈ c.appendCalls) (clock : Clock) :
    ∃ a', Moves m c a call.dst (appendEntriesEffect call clock (c.server call.dst)) a' := by
  have stands := rel.node call.dst member
  have shown := rel.sent call sent
  obtain ⟨core, reply, ended, outcome⟩ := appendEntries_cases rel member sent clock
  rw [ended]
  rcases outcome with ⟨rfl, failed⟩ | ⟨ledger, failed, role, later⟩ | stored
  · exact ⟨a, .stay rel stands (fun role => ⟨role, rfl⟩) rfl rfl (by simpa using failed)
      (by simp [Uncontested]) (by simp) (by simp)⟩
  · exact ⟨_, .down rel member ledger role later rfl rfl (by simpa using failed) rfl⟩
  obtain ⟨a', steps, lead, hist, log, now, learned, others, acked⟩ :=
    Consensus.accept_and_learn (q := m.quorums) shown.led shown.within
      (stands.term ▸ stored.current) stored.known
  refine ⟨a', .keep rel steps lead hist others ?_
    (fun candidate => absurd (stored.role.symm.trans candidate) (by decide)) rfl rfl ?_
    (by simp [Uncontested]) (by simp) (by simp)⟩
  · refine ⟨log ▸ stored.sound, now.trans stored.term.symm, learned, ?_, ?_,
      fun leader => absurd (stored.role.symm.trans leader) (by decide)⟩
    · rw [stored.snapshot, stored.lastApplied]
      exact stands.compacted
    · rw [stored.lastApplied]
      exact stands.applied.trans stored.raised
  · intro answer given _
    rw [List.mem_singleton.mp given]
    exact acked

omit [Bincode] in
theorem mem_appliedEvents {k i start : Nat} {x : LogEntry} {batch : List LogEntry}
    (event : .applied k i x ∈ appliedEvents n start batch) :
    k = n ∧ ∃ j, i = start + j ∧ batch[j]? = some x := by
  induction batch generalizing start with
  | nil => cases event
  | cons y rest ih =>
    rcases List.mem_cons.mp event with same | later
    · cases same
      exact ⟨rfl, 0, rfl, rfl⟩
    · obtain ⟨node, j, position, found⟩ := ih later
      exact ⟨node, j + 1, by omega, by simpa using found⟩

omit [Bincode] in
theorem appliedEvents_uncommitted (n start : Nat) (batch : List LogEntry) (core : Core) :
    .committed core ∉ appliedEvents n start batch := by
  induction batch generalizing start with
  | nil => simp [appliedEvents]
  | cons y rest ih => simp [appliedEvents, ih]

theorem take_moves (rel : Refines m c a) (member : n ∈ m.members) :
    Moves m c a n (takeEffect n (c.server n)) a := by
  have stands := rel.node n member
  have known := rel.known n
  have within := known.within rel.invariant
  rw [stands.commit] at known within
  have taken := stands.sound.holds.takeCommitted_run stands.compacted stands.applied within
  simp only [takeEffect, taken]
  refine .keep rel .refl rfl rfl (fun _ _ => ⟨rfl, rfl, rfl⟩) ?_
    (fun role => Or.inr ⟨role, rfl, rfl⟩) rfl rfl (by simp) (appliedEvents_uncontested _ _ _)
    (appliedEvents_uncommitted _ _ _) fun event => ?_
  · exact ⟨stands.sound.congr rfl rfl rfl, stands.term, stands.commit,
      stands.compacted.trans stands.applied, le_rfl, fun role =>
        let leads := stands.leads role
        ⟨leads.led, leads.log, leads.next, leads.acked⟩⟩
  · obtain ⟨_, j, position, found⟩ := mem_appliedEvents event
    have position : _ = (c.core n).lastApplied + 1 + j := position
    rw [List.getElem?_drop, List.getElem?_take] at found
    split_ifs at found with below
    · obtain ⟨t, k, commits, reached, same⟩ := known.entry rel.invariant below found
      refine ⟨t, k, commits, by omega, by omega, ?_⟩
      rwa [position, show (c.core n).lastApplied + 1 + j - 1 = (c.core n).lastApplied + j by omega]

/-- Compaction at an applied index does nothing, or it moves the snapshot there. -/
theorem compact_cases (rel : Refines m c a) (member : n ∈ m.members) {index : Nat}
    (handed : index ≤ (c.core n).lastApplied) :
    (RaftCore.compact ⟨index, ((c.core n).termAt index).getD 0⟩ (c.core n)).2 = c.core n ∨
      ∃ core, (RaftCore.compact ⟨index, ((c.core n).termAt index).getD 0⟩ (c.core n)).2 = core ∧
        core = { c.core n with
          log := core.log, entries := core.entries, snapshot := core.snapshot } ∧
        core.snapshot.lastIncludedIndex = index ∧ core.Sound (a.log n) := by
  have stands := rel.node n member
  have within := (rel.known n).within rel.invariant
  rw [stands.commit] at within
  have applied := stands.applied
  by_cases fresh : (c.core n).snapshot.lastIncludedIndex < index
  · rw [stands.sound.holds.termAt fresh.le (by omega), Option.getD_some]
    obtain ⟨core, ran, same, snapshot, sound⟩ := stands.sound.compact fresh (by omega)
    rw [ran]
    exact .inr ⟨core, rfl, same, by rw [snapshot], sound⟩
  · rw [RaftCore.compact_idle fresh]
    exact .inl rfl

theorem compact_moves (rel : Refines m c a) (member : n ∈ m.members) {index : Nat}
    (handed : index ≤ (c.core n).lastApplied) :
    Moves m c a n { server := { c.server n with
      core := (RaftCore.compact ⟨index, ((c.core n).termAt index).getD 0⟩ (c.core n)).2 } } a := by
  have stands := rel.node n member
  rcases compact_cases rel member handed with idle | ⟨core, ran, same, snapshot, sound⟩
  · rw [idle]
    exact .stay rel stands (fun role => ⟨role, rfl⟩) rfl rfl (by simp) (by simp [Uncontested])
      (by simp) (by simp)
  · rw [ran]
    refine .stay rel ?_ ?_ rfl rfl (by simp) (by simp [Uncontested]) (by simp) (by simp)
    · refine ⟨sound, ?_, ?_, ?_, ?_, fun role => ?_⟩
      · rw [same]
        exact stands.term
      · rw [same]
        exact stands.commit
      · rw [snapshot, same]
        exact handed
      · rw [same]
        exact stands.applied
      · rw [same] at role ⊢
        have leads := stands.leads role
        exact ⟨leads.led, leads.log, leads.next, leads.acked⟩
    · rw [same]
      exact fun role => ⟨role, rfl⟩

/-- A node starts again from its snapshot, or from one of a later entry that it has applied. -/
def Restarts (m : Membership) (c : Cluster) (a : Spec) (n : Nat) (clock : Clock) (e : Effect) : Prop :=
  ∃ k, (c.core n).snapshot.lastIncludedIndex ≤ k ∧ k ≤ (c.core n).lastApplied ∧
    restart m clock n (c.core n).hardPath ⟨k, Consensus.termAt (a.log n) k⟩ (c.core n).log = some e

theorem crash_restarts (rel : Refines m c a) (member : n ∈ m.members) {clock : Clock}
    (restarted : restart m clock n (c.core n).hardPath (c.core n).snapshot (c.core n).log =
      some e) : Restarts m c a n clock e := by
  have stands := rel.node n member
  rw [stands.sound.holds.snapshot] at restarted
  exact ⟨_, le_rfl, stands.compacted, restarted⟩

theorem crashUncompacted_restarts (rel : Refines m c a) (member : n ∈ m.members) {clock : Clock}
    {index : Nat} (newer : (c.core n).snapshot.lastIncludedIndex < index)
    (applied : index ≤ (c.core n).lastApplied)
    (restarted : restart m clock n (c.core n).hardPath ⟨index, ((c.core n).termAt index).getD 0⟩
      (c.core n).log = some e) : Restarts m c a n clock e := by
  have stands := rel.node n member
  have within := (rel.known n).within rel.invariant
  rw [stands.commit] at within
  have order := stands.applied
  rw [stands.sound.holds.termAt newer.le (by omega), Option.getD_some] at restarted
  exact ⟨index, newer.le, applied, restarted⟩

theorem restart_moves [LawfulBincode] (rel : Refines m c a) (member : n ∈ m.members) {clock : Clock}
    (restarts : Restarts m c a n clock e) : ∃ a', Moves m c a n e a' := by
  obtain ⟨k, above, handed, restarted⟩ := restarts
  have stands := rel.node n member
  have running := (rel.elections.node n member).running
  obtain ⟨core, restored, rfl⟩ := restart_ok restarted
  have known : Known a n k := (rel.known n).shorter (stands.commit ▸ handed.trans stands.applied)
  obtain ⟨same, sound⟩ := stands.sound.restore above (known.within rel.invariant) restored
  refine ⟨_, .keep rel (.single (.learn n _ known)) rfl rfl (fun v other => ⟨rfl, rfl, ?_⟩) ?_ ?_
    rfl rfl (by simp) (by simp [Uncontested]) (by simp) (by simp)⟩
  · simp [Consensus.learn, other]
  · refine ⟨sound, ?_, ?_, ?_, ?_, ?_⟩ <;> simp only [Server.fresh, same]
    · exact stands.term.trans (congrArg HardState.currentTerm running.saved.symm)
    · simp [Consensus.learn, armed, assemble]
    · exact le_rfl
    · exact le_rfl
    · exact fun role => absurd role (by simp [armed, assemble])
  · simp [Server.fresh, same, armed, assemble]

end WalKv
