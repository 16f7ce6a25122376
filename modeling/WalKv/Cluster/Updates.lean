import WalKv.Cluster.Safety

/-! No update is invented or duplicated. Every entry that a node holds, sends or hands to its
store was made by a proposal or is the no-op of a new leader, and each proposal makes at most one.
So an update takes effect at most as often as it was proposed, whatever is retransmitted, replayed
from the log after a restart or replicated by later leaders. -/
namespace WalKv
open RaftCore

/-- The action hands a command to a node. -/
def Action.proposes (command : Command) : Action → Bool
  | .propose _ proposed => proposed = command
  | _ => false

/-- Some node holds the entry in memory, or a request carries it. -/
def Cluster.Has (m : Membership) (c : Cluster) (x : LogEntry) : Prop :=
  (∃ n ∈ m.members, x ∈ (c.core n).entries) ∨ ∃ call ∈ c.appendCalls, x ∈ call.args.entries

/-- Where the entries come from that an action leaves in memory, sends and hands out: the cluster
has them already, or the action makes them. -/
structure Sourced (m : Membership) (c : Cluster) (e : Effect) (fresh : List LogEntry) : Prop where
  entries : ∀ x ∈ e.server.core.entries, c.Has m x ∨ x ∈ fresh
  sent : ∀ call ∈ e.appendCalls, ∀ x ∈ call.args.entries, c.Has m x
  applied : ∀ {k i x}, .applied k i x ∈ e.events → c.Has m x

section Steps
variable [Bincode] {m : Membership} {c : Cluster} {a : Spec} {n : Nat} {e : Effect}
  {action : Action} {x : LogEntry}

omit [Bincode] in
theorem Sourced.kept (member : n ∈ m.members)
    (entries : ∀ x ∈ e.server.core.entries, x ∈ (c.core n).entries) (quiet : e.appendCalls = [])
    (silent : ∀ k i x, .applied k i x ∉ e.events) : Sourced m c e [] where
  entries x held := .inl (.inl ⟨n, member, entries x held⟩)
  sent call sent := by simp [quiet] at sent
  applied event := absurd event (silent _ _ _)

omit [Bincode] in
theorem advance_entries (core : Core) : core.advanceCommitIndex.entries = core.entries := by
  rcases advanceCommitIndex_cases core with same | ⟨_, _, _, _, same⟩
  · rw [same]
  · rw [same]

theorem appendAsLeader_entries {core : Core} {l : List LogEntry} (sound : core.Sound l)
    (command : Command) : (appendAsLeader command core).2.entries = core.entries ∨
      ∃ entry, entry.command = command ∧
        (appendAsLeader command core).2.entries = core.entries ++ [entry] := by
  by_cases leading : core.role = .leader
  · rw [appendAsLeader_run sound leading command rfl]
    rcases Bincode.serialize (⟨core.hard.currentTerm, l.length + 1, command⟩ : LogEntry) with
      error | bytes
    · exact .inl rfl
    · refine .inr ⟨⟨core.hard.currentTerm, l.length + 1, command⟩, rfl, ?_⟩
      exact advance_entries _
  · rw [appendAsLeader_refused leading]
    exact .inl rfl

theorem appended_sourced {core : Core} {l : List LogEntry} {command : Command}
    (sound : core.Sound l) (member : n ∈ m.members) (same : core.entries = (c.core n).entries)
    (ended : e.server.core = (appendAsLeader command core).2) (quiet : e.appendCalls = [])
    (silent : ∀ k i x, .applied k i x ∉ e.events) :
    ∃ fresh, Sourced m c e fresh ∧ fresh.length ≤ 1 ∧ ∀ x ∈ fresh, x.command = command := by
  rcases appendAsLeader_entries sound command with idle | ⟨entry, made, added⟩
  · refine ⟨[], .kept member ?_ quiet silent, by simp, by simp⟩
    rw [ended, idle, same]
    exact fun _ held => held
  · refine ⟨[entry], ⟨?_, ?_, ?_⟩, le_rfl, by simpa using made⟩
    · intro x held
      rw [ended, added, same] at held
      exact (List.mem_append.mp held).imp_left fun old => .inl ⟨n, member, old⟩
    · simp [quiet]
    · intro k i x event
      exact absurd event (silent k i x)

theorem win_sourced (rel : Refines m c a) (member : n ∈ m.members) :
    ∃ fresh, Sourced m c (winEffect (c.server n)) fresh ∧ fresh.length ≤ 1 ∧
      ∀ x ∈ fresh, x.command = .noop := by
  have sound : (c.core n).becomeLeader.Sound (a.log n) := (rel.node n member).sound.congr rfl rfl rfl
  refine appended_sourced sound member rfl rfl rfl ?_
  intro k i x event
  rcases List.mem_cons.mp event with won | moved
  · cases won
  · exact commitEvent_unapplied _ _ k i x moved

theorem voteAnswer_sourced (rel : Refines m c a) {answer : VoteAnswer} {campaign : Campaign}
    (member : answer.candidate ∈ m.members) :
    ∃ fresh, Sourced m c (voteAnswerEffect answer campaign (c.server answer.candidate)) fresh ∧
      fresh.length ≤ 1 ∧ ∀ x ∈ fresh, x.command = .noop := by
  have running := (rel.elections.node answer.candidate member).running
  have idle {server : Server} (same : server.core.entries = (c.core answer.candidate).entries) :
      ∃ fresh, Sourced m c { server } fresh ∧ fresh.length ≤ 1 ∧
        ∀ x ∈ fresh, x.command = .noop :=
    ⟨[], .kept member (fun x held => same ▸ held) rfl (by simp), by simp, by simp⟩
  unfold voteAnswerEffect
  split_ifs with newer _ _ enough
  · apply idle
    rw [running.becomeFollower newer]
    exact (observe_ledger _ _ _).entries
  · exact idle rfl
  · exact win_sourced rel member
  · exact idle rfl
  · exact idle rfl

theorem propose_sourced (rel : Refines m c a) (member : n ∈ m.members) (command : Command) :
    ∃ fresh, Sourced m c (proposeEffect command (c.server n)) fresh ∧ fresh.length ≤ 1 ∧
      ∀ x ∈ fresh, x.command = command := by
  have sound : (c.server n).core.Sound (a.log n) := (rel.node n member).sound
  unfold proposeEffect
  split
  · rename_i entry core ran
    exact appended_sourced sound member rfl (by rw [ran]) rfl (commitEvent_unapplied _ _)
  · rename_i stop core ran
    exact appended_sourced sound member rfl (by rw [ran]) rfl (by simp)

/-- After a request a node has what it had and what the request carries. -/
theorem appendEntries_sourced (rel : Refines m c a) {call : AppendCall}
    (member : call.dst ∈ m.members) (sent : call ∈ c.appendCalls) (clock : Clock) :
    Sourced m c (appendEntriesEffect call clock (c.server call.dst)) [] := by
  obtain ⟨core, reply, ended, outcome⟩ := appendEntries_cases rel member sent clock
  rw [ended]
  rcases outcome with ⟨rfl, _⟩ | ⟨ledger, _⟩ | stored
  · exact .kept member (fun _ held => held) rfl (by simp)
  · exact .kept member (fun _ held => ledger.entries ▸ held) rfl (by simp)
  · refine ⟨?_, by simp, by simp⟩
    intro x held
    have shown := rel.sent call sent
    have own := (rel.node call.dst member).sound.holds.entries
    have merged := stored.sound.holds.entries
    rw [stored.snapshot] at merged
    simp only [merged] at held
    rcases Consensus.merge_cases (a.log call.dst)
        ((a.hist call.args.term).take call.args.lastSent) with ⟨same, _⟩ | ⟨same, _⟩
    · rw [same, ← own] at held
      exact .inl (.inl ⟨call.dst, member, held⟩)
    · rw [same] at held
      obtain ⟨j, found⟩ := List.getElem?_of_mem held
      rw [List.getElem?_drop] at found
      rcases Nat.lt_or_ge ((c.core call.dst).snapshot.lastIncludedIndex + j)
          call.args.prevLogIndex with before | after
      · have inside : ((c.core call.dst).entries)[j]? = some x := by
          have there := Consensus.prefix_getElem? (List.take_prefix _ _) found
          rw [own, List.getElem?_drop, ← List.getElem?_take_of_lt before, stored.agree,
            List.getElem?_take_of_lt before, there]
        exact .inl (.inl ⟨call.dst, member, List.mem_of_getElem? inside⟩)
      · refine .inl (.inr ⟨call, sent, ?_⟩)
        rw [shown.entries]
        apply List.mem_of_getElem? (i := (c.core call.dst).snapshot.lastIncludedIndex + j -
          call.args.prevLogIndex)
        rw [List.getElem?_drop, ← found]
        congr 1
        omega

theorem take_sourced (rel : Refines m c a) (member : n ∈ m.members) :
    Sourced m c (takeEffect n (c.server n)) [] := by
  have stands := rel.node n member
  have taken : (c.server n).core.takeCommitted = _ := rel.takeCommitted member
  simp only [takeEffect, taken]
  refine ⟨fun x held => .inl (.inl ⟨n, member, held⟩), by simp, ?_⟩
  intro k i x event
  obtain ⟨_, j, _, found⟩ := mem_appliedEvents event
  refine .inl ⟨n, member, ?_⟩
  rw [stands.sound.holds.entries]
  have inside := List.drop_subset_drop_left _ stands.compacted (List.mem_of_getElem? found)
  rw [List.drop_take] at inside
  exact List.mem_of_mem_take inside

omit [Bincode] in
theorem build_sourced (member : n ∈ m.members) (peer : Nat) :
    Sourced m c { server := c.server n
                  appendCalls := [⟨n, peer, (c.server n).core.buildAppendEntries peer⟩] } [] where
  entries x held := .inl (.inl ⟨n, member, held⟩)
  sent call sent x carried := by
    rw [List.mem_singleton.mp sent] at carried
    refine .inl ⟨n, member, ?_⟩
    simp only [buildAppendEntries, entriesFrom] at carried
    split_ifs at carried
    · exact carried
    · exact List.mem_of_mem_drop carried
  applied event := by simp at event

theorem restart_sourced [LawfulBincode] (rel : Refines m c a) (member : n ∈ m.members)
    {clock : Clock} (restarts : Restarts m c a n clock e) : Sourced m c e [] := by
  obtain ⟨k, above, handed, restarted⟩ := restarts
  obtain ⟨core, restored, rfl⟩ := restart_ok restarted
  have stands := rel.node n member
  have known := (rel.known n).within rel.invariant
  rw [stands.commit] at known
  obtain ⟨same, _⟩ := stands.sound.restore above
    ((handed.trans stands.applied).trans known) restored
  refine .kept member ?_ rfl (by simp)
  intro x held
  have held : x ∈ (a.log n).drop k := by
    simpa only [Server.fresh, same, armed, assemble] using held
  rw [stands.sound.holds.entries]
  exact (List.drop_subset_drop_left _ above) held

omit [Bincode] in
theorem compact_entries (snapshotMeta : SnapshotMeta) : Fallible.Keeps
    (fun core core' : Core => ∀ x ∈ core'.entries, x ∈ core.entries) (compact snapshotMeta) := by
  have refl (core : Core) : ∀ x ∈ core.entries, x ∈ core.entries := fun _ held => held
  have trans {core core' core'' : Core} (first : ∀ x ∈ core'.entries, x ∈ core.entries)
      (second : ∀ x ∈ core''.entries, x ∈ core'.entries) : ∀ x ∈ core''.entries, x ∈ core.entries :=
    fun x held => first x (second x held)
  refine .bind trans (.get refl) fun core => ?_
  unfold Fallible.when
  split_ifs
  · refine .bind trans (fun core x held => (List.mem_filter.mp held).1) fun _ => ?_
    exact .bind trans refl fun _ => refl
  · exact refl

theorem timeout_sourced (rel : Refines m c a) (member : n ∈ m.members) (clock : Clock) :
    Sourced m c (timeoutEffect clock (c.server n)) [] := by
  simp only [timeoutEffect, (rel.elections.node n member).running.becomeCandidate]
  exact .kept member (fun _ held => held) rfl (by simp)

theorem requestVote_sourced (rel : Refines m c a) {call : VoteCall}
    (member : call.dst ∈ m.members) (clock : Clock) :
    Sourced m c (requestVoteEffect call clock (c.server call.dst)) [] := by
  have ledger := observe_ledger (c.core call.dst) call.args.term none
  simp only [requestVoteEffect,
    (rel.elections.node call.dst member).running.handleRequestVote]
  split_ifs
  · exact .kept member (fun _ held => held) rfl (by simp)
  · exact .kept member (fun _ held => ledger.entries ▸ held) rfl (by simp)
  · exact .kept member (fun _ held => ledger.entries ▸ held) rfl (by simp)

theorem appendAnswer_sourced (rel : Refines m c a) {answer : AppendAnswer}
    (member : answer.leader ∈ m.members) :
    Sourced m c (appendAnswerEffect answer (c.server answer.leader)) [] := by
  have running := (rel.elections.node answer.leader member).running
  unfold appendAnswerEffect
  split_ifs with newer
  · rw [running.becomeFollower newer]
    exact .kept member (fun _ held => (observe_ledger _ _ _).entries ▸ held) rfl (by simp)
  · exact .kept member (fun _ held => held) rfl (by simp)
  · refine .kept member ?_ rfl (commitEvent_unapplied _ _)
    intro x held
    obtain ⟨nextIndex, matchIndex, same | same⟩ := onAppendEntriesReply_cases answer.peer
      answer.lastSent answer.reply (c.server answer.leader).core
    · rwa [same] at held
    · rwa [same, advance_entries] at held

/-- What an action may make: the entry of a proposal, or the no-op of a new leader. -/
theorem effect_sourced [LawfulBincode] (rel : Refines m c a) (member : action.node ∈ m.members)
    (clean : CleanCrash action) (acted : effect m c action = some e) :
    ∃ fresh, Sourced m c e fresh ∧ fresh.length ≤ 1 ∧
      ∀ x ∈ fresh, x.command = .noop ∨ action.proposes x.command = true := by
  have none {e : Effect} (sourced : Sourced m c e []) : ∃ fresh, Sourced m c e fresh ∧
      fresh.length ≤ 1 ∧ ∀ x ∈ fresh, x.command = .noop ∨ action.proposes x.command = true :=
    ⟨[], sourced, by simp, by simp⟩
  cases effect_acts acted with
  | timeout n clock => exact none (timeout_sourced rel member clock)
  | requestVote clock => exact none (requestVote_sourced rel member clock)
  | voteAnswer =>
    obtain ⟨fresh, sourced, single, noops⟩ := voteAnswer_sourced rel member
    exact ⟨fresh, sourced, single, fun x made => .inl (noops x made)⟩
  | propose n command =>
    obtain ⟨fresh, sourced, single, made⟩ := propose_sourced rel member command
    refine ⟨fresh, sourced, single, fun x inside => .inr ?_⟩
    simp [Action.proposes, made x inside]
  | build => exact none (build_sourced member _)
  | appendEntries clock sent => exact none (appendEntries_sourced rel member sent clock)
  | appendAnswer => exact none (appendAnswer_sourced rel member)
  | take n => exact none (take_sourced rel member)
  | publish => exact none (.kept member (fun _ held => held) rfl (by simp))
  | acknowledge | deadlineExceeded => exact none (.kept member (fun _ held => held) rfl (by simp))
  | compact => exact none (.kept member (fun _ held => compact_entries _ _ _ held) rfl (by simp))
  | crash restarted => exact none (restart_sourced rel member (crash_restarts rel member restarted))
  | crashUncompacted newer applied restarted =>
    exact none (restart_sourced rel member
      (crashUncompacted_restarts rel member newer applied restarted))
  | interrupt => exact clean.elim

/-- Every update around was made by one of the proposals so far. -/
structure Made (m : Membership) (past : List Action) (c : Cluster) (born : List LogEntry) :
    Prop where
  has : ∀ x, c.Has m x → x.command = .noop ∨ x ∈ born
  applied : ∀ {k i x}, .applied k i x ∈ c.trace → x.command = .noop ∨ x ∈ born
  proposed : ∀ command, command ≠ .noop →
    born.countP (·.command = command) ≤ past.countP (·.proposes command)

theorem made_initial (start : Initial m c) : Made m [] c [] where
  has x held := by
    rcases held with ⟨n, member, held⟩ | ⟨call, sent, _⟩
    · have entries := (stands_initial start member).sound.holds.entries
      rw [entries] at held
      simp [Consensus.initial] at held
    · simp [start.appendCalls] at sent
  applied event := by simp [start.trace] at event
  proposed command _ := by simp

theorem Made.step [LawfulBincode] {past : List Action} {born : List LogEntry} {c' : Cluster}
    (made : Made m past c born) (rel : Refines m c a) (clean : CleanCrash action)
    (stepped : step m c action = some c') : ∃ born', Made m (past ++ [action]) c' born' := by
  obtain ⟨member, e, acted, rfl⟩ := step_ok stepped
  obtain ⟨fresh, sourced, single, named⟩ := effect_sourced rel member clean acted
  have old {x : LogEntry} (held : c.Has m x) : x.command = .noop ∨ x ∈ born ++ fresh :=
    (made.has x held).imp_right (List.mem_append_left _)
  refine ⟨born ++ fresh, ?_, ?_, ?_⟩
  · rintro x (⟨v, voter, held⟩ | ⟨call, sent, carried⟩)
    · by_cases acting : v = action.node
      · subst acting
        rw [c.apply_core_self] at held
        rcases sourced.entries x held with before | new
        · exact old before
        · exact .inr (List.mem_append_right _ new)
      · rw [c.apply_core_other e acting] at held
        exact old (.inl ⟨v, voter, held⟩)
    · rcases List.mem_append.mp sent with before | new
      · exact old (.inr ⟨call, before, carried⟩)
      · exact old (sourced.sent call new x carried)
  · intro k i x event
    rcases List.mem_append.mp event with before | new
    · exact (made.applied before).imp_right (List.mem_append_left _)
    · exact old (sourced.applied new)
  · intro command update
    have counted := made.proposed command update
    rw [List.countP_append, List.countP_append]
    apply Nat.add_le_add counted
    rcases fresh with _ | ⟨x, rest⟩
    · simp
    · obtain rfl : rest = [] := List.length_eq_zero_iff.mp (by simpa using single)
      by_cases same : x.command = command
      · subst same
        rcases named x (by simp) with noop | proposed
        · exact absurd noop update
        · simp [proposed]
      · simp [same]

omit [Bincode] in
/-- Different indices at which entries with the command stand need as many proposals of it. -/
theorem Made.bound {past : List Action} {born : List LogEntry} {command : Command}
    (made : Made m past c born) (update : command ≠ .noop) (indices : Finset Nat)
    (found : ∀ i ∈ indices, ∃ x ∈ born, x.index = i ∧ x.command = command) :
    indices.card ≤ past.countP (·.proposes command) := by
  have covered : indices ⊆ ((born.filter (·.command = command)).map LogEntry.index).toFinset := by
    intro i inside
    obtain ⟨x, bornX, index, same⟩ := found i inside
    rw [List.mem_toFinset, List.mem_map]
    exact ⟨x, List.mem_filter.mpr ⟨bornX, by simpa using same⟩, index⟩
  calc indices.card
    _ ≤ _ := Finset.card_le_card covered
    _ ≤ ((born.filter (·.command = command)).map LogEntry.index).length :=
      List.toFinset_card_le _
    _ = born.countP (·.command = command) := by
      rw [List.length_map, List.countP_eq_length_filter]
    _ ≤ _ := made.proposed command update

omit [Bincode] in
theorem RaftCore.Contiguous.distinct {core : Core} (contiguous : core.Contiguous) :
    (core.entries.map LogEntry.index).Nodup := by
  rw [List.Nodup, List.pairwise_map]
  apply List.pairwise_iff_getElem.mpr
  intro i j low high below
  have first := contiguous i _ (List.getElem?_eq_getElem low)
  have second := contiguous j _ (List.getElem?_eq_getElem high)
  omega

theorem follows_made [LawfulBincode] {start : Cluster} {actions : List Action}
    (initial : Initial m start) (run : Transition.Follows (step m) Orderly start actions c) :
    ∃ a born, Refines m c a ∧ Made m actions c born := by
  refine run.invariant (P := fun past c => ∃ a born, Refines m c a ∧ Made m past c born)
    ⟨_, [], refines_initial initial, made_initial initial⟩ ?_
  rintro past before after action ⟨a, born, rel, made⟩ ⟨leading, served, clean⟩ stepped
  obtain ⟨a', rel'⟩ := refines_step rel leading served clean stepped
  obtain ⟨born', made'⟩ := made.step rel clean stepped
  exact ⟨a', born', rel', made'⟩

end Steps

/-- At-most-once: in a run of the listed actions the indices at which an update was handed to any
store, by any node and in any of its lives, are at most as many as the proposals of that update,
and so are its entries in the log of any node. -/
theorem updates_at_most_once [Bincode] [LawfulBincode] {m : Membership} {start c : Cluster}
    {actions : List Action} {command : Command} (initial : Initial m start)
    (run : Transition.Follows (step m) Orderly start actions c) (update : command ≠ .noop) :
    (∀ indices : Finset Nat,
      (∀ i ∈ indices, ∃ n x, .applied n i x ∈ c.trace ∧ x.command = command) →
      indices.card ≤ actions.countP (·.proposes command)) ∧
    ∀ n ∈ m.members, (c.server n).core.entries.countP (·.command = command) ≤
      actions.countP (·.proposes command) := by
  obtain ⟨a, born, rel, made⟩ := follows_made initial run
  have named {x : LogEntry} (source : x.command = .noop ∨ x ∈ born) (same : x.command = command) :
      x ∈ born := by
    rcases source with noop | inside
    · exact absurd (same.symm.trans noop) update
    · exact inside
  constructor
  · intro indices handed
    apply made.bound update indices
    intro i inside
    obtain ⟨n, x, event, same⟩ := handed i inside
    exact ⟨x, named (made.applied event) same, rel.applied_index event, same⟩
  · intro n member
    have distinct := (rel.node n member).sound.holds.contiguous.distinct.sublist
      ((List.filter_sublist (p := fun x : LogEntry => decide (x.command = command))).map
        LogEntry.index)
    rw [List.countP_eq_length_filter, ← List.length_map (f := LogEntry.index),
      ← List.toFinset_card_of_nodup distinct]
    apply made.bound update
    intro i inside
    obtain ⟨x, kept, index⟩ := List.mem_map.mp (List.mem_toFinset.mp inside)
    obtain ⟨held, same⟩ := List.mem_filter.mp kept
    have same : x.command = command := of_decide_eq_true same
    exact ⟨x, named (made.has x (.inl ⟨n, member, held⟩)) same, index, same⟩

/-- Node 1 wins, proposes an update once, replicates it twice to node 2, restarts and hands it
out, as node 2 does. -/
def retransmitted : List Action :=
  [.timeout 1 ⟨0, 0⟩, .requestVote ⟨1, 2, ⟨1, 1, 0, 0⟩⟩ ⟨0, 0⟩, .voteAnswer ⟨2, 1, 1, ⟨1, true⟩⟩,
    .propose 1 (.put [1] [1]), .build 1 2,
    .appendEntries ⟨1, 2, ⟨1, 1, 0, 0, [⟨1, 1, .noop⟩, ⟨1, 2, .put [1] [1]⟩], 0⟩⟩ ⟨0, 0⟩,
    .appendEntries ⟨1, 2, ⟨1, 1, 0, 0, [⟨1, 1, .noop⟩, ⟨1, 2, .put [1] [1]⟩], 0⟩⟩ ⟨0, 0⟩,
    .appendAnswer ⟨2, 1, 1, 2, ⟨1, true, 0⟩⟩, .take 1,
    .build 1 2, .appendEntries ⟨1, 2, ⟨1, 1, 2, 1, [], 2⟩⟩ ⟨0, 0⟩, .take 2, .crash 1 ⟨0, 0⟩]

theorem updates_at_most_once_retransmitted : ∃ c, Reachable trio Orderly c ∧
    (∃ x, .applied 1 2 x ∈ c.trace) ∧ (∃ x, .applied 2 2 x ∈ c.trace) ∧
    retransmitted.countP (·.proposes (.put [1] [1])) = 1 ∧
    (c.server 2).core.entries.countP (·.command = .put [1] [1]) ≤ 1 ∧
    ∀ indices : Finset Nat,
      (∀ i ∈ indices, ∃ n x, .applied n i x ∈ c.trace ∧ x.command = .put [1] [1]) →
      indices.card ≤ 1 := by
  have ran : ((Transition.execute (step trio) Orderly (boot trio ⟨0, 0⟩) retransmitted).any
      fun c => c.trace.any (Event.hands 1 2) && c.trace.any (Event.hands 2 2)) = true := by
    decide +kernel
  obtain ⟨c, run, shown⟩ := Transition.execute_shows_run ran
  obtain ⟨first, second⟩ := Bool.and_eq_true_iff.mp shown
  have initial := boot_initial trio ⟨0, 0⟩ trio_timed
  have update : Command.put [1] [1] ≠ .noop := by simp
  have once := updates_at_most_once initial run update
  have proposed : retransmitted.countP (·.proposes (.put [1] [1])) = 1 := by decide
  rw [proposed] at once
  exact ⟨c, ⟨_, initial, run.reaches⟩, Event.of_hands first, Event.of_hands second, proposed,
    once.2 2 (by decide), once.1⟩

end WalKv
