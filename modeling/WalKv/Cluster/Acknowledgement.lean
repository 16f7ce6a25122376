import WalKv.Cluster.Simulation

/-! What an acknowledged write means. A client waits until the published commit
index reaches the index of its entry, whatever entry that index then has. Its
write is the one that committed as long as the entries that clients of a node
wait for are not overwritten there. -/
namespace WalKv
open RaftCore
open Consensus (Led Known Extends Invariant)

/-- A request that a node takes up has no entry that differs in term from the
node's own at or below an index that one of its clients waits for. -/
def KeepsPending (c : Cluster) : Action → Prop
  | .appendEntries call _ =>
    (c.server call.dst).core.hard.currentTerm ≤ call.args.term →
      ∀ e ∈ (c.server call.dst).pending, ∀ x ∈ call.args.entries, x.index ≤ e.index →
        ∀ t ∈ (c.server call.dst).core.termAt x.index, t = x.term
  | _ => True

instance (c : Cluster) : (action : Action) → Decidable (KeepsPending c action)
  | .appendEntries .. => inferInstanceAs (Decidable (_ → ∀ e ∈ _, ∀ x ∈ _, _ → ∀ t ∈ _, _))
  | .timeout .. | .requestVote .. | .voteAnswer .. | .propose .. | .build .. | .appendAnswer ..
  | .take .. | .publish .. | .acknowledge .. | .deadlineExceeded .. | .compact .. | .crash ..
  | .crashUncompacted .. | .interrupt .. =>
    isTrue trivial

def Undisturbed (c : Cluster) (action : Action) : Prop :=
  Orderly c action ∧ KeepsPending c action

instance (c : Cluster) (action : Action) : Decidable (Undisturbed c action) :=
  inferInstanceAs (Decidable (_ ∧ _))

section Runs
variable [Bincode] {m : Membership} {c c' : Cluster} {a a' : Spec} {n : Nat} {e : Effect}
  {action : Action}

/-- The entry is committed at its own index. -/
def Committed (a : Spec) (x : LogEntry) : Prop :=
  ∃ t k, a.commits t k ∧ 1 ≤ x.index ∧ x.index ≤ k ∧ (a.hist t)[x.index - 1]? = some x

omit [Bincode] in
theorem Committed.mono {q : Consensus.Quorums Nat} {x : LogEntry} (committed : Committed a x)
    (inv : Invariant q a) (grown : Extends a a') : Committed a' x := by
  obtain ⟨t, k, commits, first, last, found⟩ := committed
  refine ⟨t, k, grown.commits commits, first, last, ?_⟩
  obtain ⟨rest, same⟩ := grown.hist (inv.committed commits).1
  rw [← same, List.getElem?_append_left (List.getElem?_eq_some_iff.mp found).1]
  exact found

omit [Bincode] in
theorem entryAt_above {core : Core} {i : Nat} {x : LogEntry} (found : core.entryAt i = some x) :
    core.snapshot.lastIncludedIndex < i := by
  by_contra below
  rw [entryAt, if_pos (by rw [baseIndex]; omega)] at found
  cases found

omit [Bincode] in
theorem Grows.entryAt {core core' : Core} (grows : Grows core core') {i : Nat} {x : LogEntry}
    (found : core.entryAt i = some x) : core'.entryAt i = some x := by
  have above := entryAt_above found
  have outside : ¬ i < core.snapshot.lastIncludedIndex + 1 := by omega
  rw [RaftCore.entryAt, baseIndex, if_neg outside] at found
  rw [RaftCore.entryAt, baseIndex, grows.snapshot, if_neg outside]
  obtain ⟨rest, same⟩ := grows.entries
  rw [← same, List.getElem?_append_left (List.getElem?_eq_some_iff.mp found).1]
  exact found

omit [Bincode] in
theorem Committed.positive {x : LogEntry} (committed : Committed a x) : 1 ≤ x.index := by
  obtain ⟨_, _, _, first, _⟩ := committed
  exact first

omit [Bincode] in
@[simp] theorem Cluster.apply_server_self (c : Cluster) (n : Nat) (e : Effect) :
    (c.apply n e).server n = e.server := by
  simp [Cluster.apply]

omit [Bincode] in
theorem Cluster.apply_server_other (c : Cluster) (e : Effect) {v : Nat} (other : v ≠ n) :
    (c.apply n e).server v = c.server v := by
  simp [Cluster.apply, other]

theorem Refines.committed_of_applied (rel : Refines m c a) (member : n ∈ m.members)
    {x : LogEntry} (found : (c.core n).entryAt x.index = some x)
    (handed : x.index ≤ (c.core n).lastApplied) : Committed a x := by
  have stands := rel.node n member
  have applied := stands.applied
  have above := entryAt_above found
  rw [stands.sound.holds.entryAt above] at found
  have known := rel.known n
  rw [stands.commit] at known
  obtain ⟨t, k, commits, below, same⟩ :=
    known.entry rel.invariant (j := x.index - 1) (by omega) found
  exact ⟨t, k, commits, by omega, by omega, same⟩

/-- What clients wait for on a node, and what they have been told. -/
structure Waiting (m : Membership) (c : Cluster) (a : Spec) : Prop where
  pending : ∀ n ∈ m.members, ∀ x ∈ (c.server n).pending,
    (c.core n).entryAt x.index = some x ∨ Committed a x
  taken : ∀ n ∈ m.members, ∀ batch ∈ (c.server n).taken, ∀ x ∈ batch,
    x.index ≤ (c.core n).lastApplied
  published : ∀ n ∈ m.members, (c.server n).commitTx ≤ (c.core n).lastApplied
  handed : ∀ n ∈ m.members, ∀ i, 1 ≤ i → i ≤ (c.core n).lastApplied →
    ∃ k x, .applied k i x ∈ c.trace
  acknowledged : ∀ {n x}, .acknowledged n x ∈ c.trace →
    Committed a x ∧ ∃ k y, .applied k x.index y ∈ c.trace

/-- What an action of node `n` has to show for that. -/
structure Waits (c : Cluster) (a : Spec) (n : Nat) (e : Effect) : Prop where
  pending : ∀ x ∈ e.server.pending, e.server.core.entryAt x.index = some x ∨ Committed a x
  taken : ∀ batch ∈ e.server.taken, ∀ x ∈ batch, x.index ≤ e.server.core.lastApplied
  published : e.server.commitTx ≤ e.server.core.lastApplied
  handed : ∀ i, i ≤ e.server.core.lastApplied →
    i ≤ (c.core n).lastApplied ∨ ∃ x, .applied n i x ∈ e.events
  acknowledged : ∀ {k x}, .acknowledged k x ∈ e.events →
    Committed a x ∧ x.index ≤ (c.core n).lastApplied

theorem Waiting.act (waiting : Waiting m c a) (rel : Refines m c a) (member : n ∈ m.members)
    (moves : Moves m c a n e a') (waits : Waits c a n e) : Waiting m (c.apply n e) a' := by
  have grown := Consensus.steps_extends moves.steps
  have inv := rel.invariant
  have handed {v i : Nat} (voter : v ∈ m.members) (first : 1 ≤ i)
      (last : i ≤ (c.core v).lastApplied) : ∃ k x, .applied k i x ∈ (c.apply n e).trace := by
    obtain ⟨k, x, event⟩ := waiting.handed v voter i first last
    exact ⟨k, x, List.mem_append_left _ event⟩
  constructor
  · intro v voter x waits_for
    by_cases acting : v = n
    · subst acting
      rw [c.apply_server_self] at waits_for
      rw [c.apply_core_self]
      exact (waits.pending x waits_for).imp_right (·.mono inv grown)
    · rw [c.apply_server_other e acting] at waits_for
      rw [c.apply_core_other e acting]
      exact (waiting.pending v voter x waits_for).imp_right (·.mono inv grown)
  · intro v voter batch held x inside
    by_cases acting : v = n
    · subst acting
      rw [c.apply_server_self] at held
      rw [c.apply_core_self]
      exact waits.taken batch held x inside
    · rw [c.apply_server_other e acting] at held
      rw [c.apply_core_other e acting]
      exact waiting.taken v voter batch held x inside
  · intro v voter
    by_cases acting : v = n
    · subst acting
      rw [c.apply_server_self, c.apply_core_self]
      exact waits.published
    · rw [c.apply_server_other e acting, c.apply_core_other e acting]
      exact waiting.published v voter
  · intro v voter i first last
    by_cases acting : v = n
    · subst acting
      rw [c.apply_core_self] at last
      rcases waits.handed i last with before | ⟨x, event⟩
      · exact handed voter first before
      · exact ⟨v, x, List.mem_append_right _ event⟩
    · rw [c.apply_core_other e acting] at last
      exact handed voter first last
  · intro v x event
    rcases List.mem_append.mp event with old | new
    · obtain ⟨committed, k, y, applied⟩ := waiting.acknowledged old
      exact ⟨committed.mono inv grown, k, y, List.mem_append_left _ applied⟩
    · obtain ⟨committed, reached⟩ := waits.acknowledged new
      exact ⟨committed.mono inv grown, handed member committed.positive reached⟩

/-- Clients of the node see nothing of the action. -/
structure Unseen (s : Server) (e : Effect) : Prop where
  pending : e.server.pending = s.pending
  taken : e.server.taken = s.taken
  commitTx : e.server.commitTx = s.commitTx
  silent : ∀ k x, .acknowledged k x ∉ e.events

omit [Bincode] in
theorem Waiting.grows (waiting : Waiting m c a) (member : n ∈ m.members)
    (unseen : Unseen (c.server n) e) (grows : Grows (c.core n) e.server.core) :
    Waits c a n e where
  pending x waits_for := by
    rw [unseen.pending] at waits_for
    exact (waiting.pending n member x waits_for).imp_left grows.entryAt
  taken := by
    rw [unseen.taken, grows.lastApplied]
    exact waiting.taken n member
  published := by
    rw [unseen.commitTx, grows.lastApplied]
    exact waiting.published n member
  handed i last := Or.inl (grows.lastApplied ▸ last)
  acknowledged event := absurd event (unseen.silent _ _)

omit [Bincode] in
theorem commitEvent_silent (before after : Core) (k : Nat) (x : LogEntry) :
    .acknowledged k x ∉ commitEvent before after := by
  unfold commitEvent
  split_ifs <;> simp

omit [Bincode] in
theorem appliedEvents_silent (n start : Nat) (batch : List LogEntry) (k : Nat) (x : LogEntry) :
    .acknowledged k x ∉ appliedEvents n start batch := by
  induction batch generalizing start with
  | nil => simp [appliedEvents]
  | cons y rest ih => simp [appliedEvents, ih]

omit [Bincode] in
theorem timeout_unseen (clock : Clock) (s : Server) : Unseen s (timeoutEffect clock s) := by
  unfold timeoutEffect
  split <;> exact ⟨rfl, rfl, rfl, by simp⟩

omit [Bincode] in
theorem requestVote_unseen (call : VoteCall) (clock : Clock) (s : Server) :
    Unseen s (requestVoteEffect call clock s) := by
  unfold requestVoteEffect
  split
  · refine ⟨rfl, rfl, rfl, fun k x => ?_⟩
    split_ifs <;> simp
  · exact ⟨rfl, rfl, rfl, by simp⟩

theorem voteAnswer_unseen (answer : VoteAnswer) (campaign : Campaign) (s : Server) :
    Unseen s (voteAnswerEffect answer campaign s) := by
  unfold voteAnswerEffect
  split_ifs
  · exact ⟨rfl, rfl, rfl, by simp⟩
  · exact ⟨rfl, rfl, rfl, by simp⟩
  · exact ⟨rfl, rfl, rfl, fun k x => by simp [winEffect, commitEvent_silent]⟩
  all_goals exact ⟨rfl, rfl, rfl, by simp⟩

omit [Bincode] in
theorem appendAnswer_unseen (answer : AppendAnswer) (s : Server) :
    Unseen s (appendAnswerEffect answer s) := by
  unfold appendAnswerEffect
  split_ifs
  · exact ⟨rfl, rfl, rfl, by simp⟩
  · exact ⟨rfl, rfl, rfl, by simp⟩
  · exact ⟨rfl, rfl, rfl, fun k x => commitEvent_silent _ _ k x⟩

theorem appendAsLeader_found {core core' : Core} {l : List LogEntry} {command : Command}
    {entry : LogEntry} (sound : core.Sound l)
    (ran : appendAsLeader command core = (.ok entry, core')) :
    core'.entryAt entry.index = some entry := by
  obtain ⟨_, made, bytes, encoded, rfl⟩ := appendAsLeader_ok sound ran
  have next : entry.index = l.length + 1 := by rw [made]
  refine (Grows.advance _).entryAt ?_
  rw [next, (sound.withEntry next encoded).holds.entryAt (Nat.lt_succ_of_le sound.holds.compacted)]
  simp

/-- A client waits for the entry that its proposal appended. -/
theorem propose_waits (waiting : Waiting m c a) (rel : Refines m c a) (member : n ∈ m.members)
    (command : Command) : Waits c a n (proposeEffect command (c.server n)) := by
  have grows := propose_grows (c := c) (n := n) command
  unfold proposeEffect at grows ⊢
  split at grows
  · rename_i entry core ran
    have found := appendAsLeader_found (rel.node n member).sound ran
    constructor
    · intro x waits_for
      rcases List.mem_cons.mp waits_for with rfl | old
      · exact Or.inl found
      · exact (waiting.pending n member x old).imp_left grows.entryAt
    · rw [grows.lastApplied]
      exact waiting.taken n member
    · rw [grows.lastApplied]
      exact waiting.published n member
    · intro i last
      exact Or.inl (grows.lastApplied ▸ last)
    · intro k x event
      exact absurd event (commitEvent_silent _ _ _ _)
  · exact waiting.grows member ⟨rfl, rfl, rfl, by simp⟩ grows

/-- What a client waits for survives a request that does not overwrite it. -/
theorem stored_retains (rel : Refines m c a) (member : n ∈ m.members) {args : AppendEntriesArgs}
    (shown : Shows a args) {core : Core} (stored : Stored a n args (c.core n) core) {x : LogEntry}
    (found : (c.core n).entryAt x.index = some x)
    (kept : ∀ y ∈ args.entries, y.index ≤ x.index → ∀ t ∈ (c.core n).termAt y.index, t = y.term) :
    core.entryAt x.index = some x := by
  have stands := rel.node n member
  have inv := rel.invariant
  have above := entryAt_above found
  have later : a.term n ≤ args.term := stands.term ▸ stored.current
  rw [stands.sound.holds.entryAt above] at found
  rw [stored.sound.holds.entryAt (by rw [stored.snapshot]; exact above)]
  refine Consensus.merge_retains
    ((inv.rooted n).matching_logs (inv.rooted_hist shown.led)) found ?_
  intro j own other below ours theirs
  have same (k : Nat) (agree : (a.log n).take k = (a.hist args.term).take k) (inside : j < k) :
      own = other := by
    have position := congrArg (·[j]?) agree
    rw [List.getElem?_take] at theirs
    split_ifs at theirs
    simp only [List.getElem?_take, if_pos inside, ours, theirs] at position
    exact Option.some.inj position
  rcases Nat.lt_or_ge j (c.core n).snapshot.lastIncludedIndex with covered | uncovered
  · have bound := stands.sound.holds.compacted
    have inside := ((rel.known n).shorter
      (stands.commit ▸ stands.compacted.trans stands.applied)).in_leader inv shown.led later
    refine congrArg _ (same _ ?_ covered)
    rw [Consensus.prefix_take inside (by simpa using bound), List.take_take, Nat.min_self]
  rcases Nat.lt_or_ge j args.prevLogIndex with before | after
  · exact congrArg _ (same _ stored.agree before)
  · have sent : args.entries[j - args.prevLogIndex]? = some other := by
      rw [shown.entries, List.getElem?_drop, ← theirs]
      congr 1
      omega
    have index := shown.contiguous rel _ other sent
    have reach := (List.getElem?_eq_some_iff.mp ours).1
    refine kept other (List.mem_of_getElem? sent) (by omega) own.term ?_
    rw [index, show args.prevLogIndex + (j - args.prevLogIndex) + 1 = j + 1 by omega,
      stands.sound.holds.termAt (by omega) reach, Consensus.termAt_succ, ours]
    rfl

theorem appendEntries_waits (waiting : Waiting m c a) (rel : Refines m c a) {call : AppendCall}
    (member : call.dst ∈ m.members) (sent : call ∈ c.appendCalls) (clock : Clock)
    (kept : KeepsPending c (.appendEntries call clock)) :
    Waits c a call.dst (appendEntriesEffect call clock (c.server call.dst)) := by
  obtain ⟨core, reply, ended, outcome⟩ := appendEntries_cases rel member sent clock
  rw [ended]
  rcases outcome with ⟨rfl, _⟩ | ⟨ledger, _⟩ | stored
  · exact waiting.grows member ⟨rfl, rfl, rfl, by simp⟩ (.refl _)
  · exact waiting.grows member ⟨rfl, rfl, rfl, by simp⟩ ledger.grows
  · constructor
    · intro x waits_for
      refine (waiting.pending call.dst member x waits_for).imp_left fun found => ?_
      exact stored_retains rel member (rel.sent call sent) stored found
        (kept stored.current x waits_for)
    · intro batch held x inside
      rw [stored.lastApplied]
      exact waiting.taken call.dst member batch held x inside
    · rw [stored.lastApplied]
      exact waiting.published call.dst member
    · intro i last
      rw [stored.lastApplied] at last
      exact Or.inl last
    · intro k x event
      cases event

omit [Bincode] in
theorem appliedEvents_mem (n start : Nat) {j : Nat} {x : LogEntry} {batch : List LogEntry}
    (found : batch[j]? = some x) : .applied n (start + j) x ∈ appliedEvents n start batch := by
  induction batch generalizing start j with
  | nil => cases found
  | cons y rest ih =>
    cases j with
    | zero =>
      cases found
      exact List.mem_cons_self
    | succ j =>
      have later := ih (start + 1) found
      rw [Nat.add_right_comm, Nat.add_assoc] at later
      exact List.mem_cons_of_mem _ later

theorem take_waits (waiting : Waiting m c a) (rel : Refines m c a) (member : n ∈ m.members) :
    Waits c a n (takeEffect n (c.server n)) := by
  have stands := rel.node n member
  have within := (rel.known n).within rel.invariant
  rw [stands.commit] at within
  have applied := stands.applied
  have taken := stands.sound.holds.takeCommitted_run stands.compacted applied within
  simp only [takeEffect, taken]
  constructor
  · exact waiting.pending n member
  · have old {batch : List LogEntry} (held : batch ∈ (c.server n).taken) (x : LogEntry)
        (inside : x ∈ batch) : x.index ≤ (c.core n).commitIndex :=
      (waiting.taken n member batch held x inside).trans applied
    intro batch held x inside
    split_ifs at held
    · exact old held x inside
    · rcases List.mem_append.mp held with before | new
      · exact old before x inside
      · rw [List.mem_singleton.mp new] at inside
        obtain ⟨j, found⟩ := List.mem_iff_getElem?.mp (List.mem_of_mem_drop inside)
        rw [List.getElem?_take] at found
        split_ifs at found with below
        have index := stands.sound.holds.indexed j x found
        show x.index ≤ (c.core n).commitIndex
        omega
  · exact (waiting.published n member).trans applied
  · intro i last
    rcases Nat.lt_or_ge (c.core n).lastApplied i with new | before
    · obtain ⟨j, rfl⟩ := Nat.exists_eq_add_of_le new
      have last : (c.core n).lastApplied + 1 + j ≤ (c.core n).commitIndex := last
      have reach : (c.core n).lastApplied + j < (a.log n).length := by omega
      refine Or.inr ⟨(a.log n)[(c.core n).lastApplied + j], appliedEvents_mem n _ ?_⟩
      rw [List.getElem?_drop, List.getElem?_take, if_pos (by omega)]
      exact List.getElem?_eq_getElem reach
    · exact Or.inl before
  · intro k x event
    exact absurd event (appliedEvents_silent _ _ _ _ _)

/-- Compaction drops only what is committed. -/
theorem compact_waits (waiting : Waiting m c a) (rel : Refines m c a) (member : n ∈ m.members)
    {index : Nat} (handed : index ≤ (c.core n).lastApplied) :
    Waits c a n { server := { c.server n with
      core := (RaftCore.compact ⟨index, ((c.core n).termAt index).getD 0⟩ (c.core n)).2 } } := by
  have stands := rel.node n member
  rcases compact_cases rel member handed with idle | ⟨core, ran, same, snapshot, sound⟩
  · rw [idle]
    exact waiting.grows member ⟨rfl, rfl, rfl, by simp⟩ (.refl _)
  · have lastApplied : core.lastApplied = (c.core n).lastApplied := by rw [same]
    rw [ran]
    constructor
    · intro x waits_for
      rcases waiting.pending n member x waits_for with found | committed
      · by_cases dropped : x.index ≤ index
        · exact Or.inr (rel.committed_of_applied member found (dropped.trans handed))
        · rw [stands.sound.holds.entryAt (entryAt_above found)] at found
          exact Or.inl ((sound.holds.entryAt (by omega)).trans found)
      · exact Or.inr committed
    · intro batch held x inside
      rw [lastApplied]
      exact waiting.taken n member batch held x inside
    · rw [lastApplied]
      exact waiting.published n member
    · intro i last
      exact Or.inl (lastApplied ▸ last)
    · intro k x event
      cases event

/-- No client waits for a node that has restarted. -/
theorem restart_waits (restarts : Restarts m c a n clock e) : Waits c a n e := by
  obtain ⟨k, _, handed, restarted⟩ := restarts
  obtain ⟨core, restored, rfl⟩ := restart_ok restarted
  obtain ⟨records, entries, _, _, _, same⟩ := restore_ok restored
  constructor
  · intro x waits_for
    cases waits_for
  · intro batch held
    cases held
  · simp only [Server.fresh, same]
    exact le_rfl
  · intro i last
    simp only [Server.fresh, same] at last
    exact Or.inl (Nat.le_trans last handed)
  · intro k x event
    cases event

omit [Bincode] in
theorem publish_waits (waiting : Waiting m c a) (member : n ∈ m.members) {batch : List LogEntry}
    {last : LogEntry} (held : batch ∈ (c.server n).taken) (ends : batch.getLast? = some last) :
    Waits c a n { server := { c.server n with
      taken := (c.server n).taken.erase batch, commitTx := last.index } } where
  pending := waiting.pending n member
  taken other kept := waiting.taken n member other (List.mem_of_mem_erase kept)
  published := waiting.taken n member batch held last (List.mem_of_getLast? ends)
  handed _ last := Or.inl last
  acknowledged event := by cases event

omit [Bincode] in
theorem deadlineExceeded_waits (waiting : Waiting m c a) (member : n ∈ m.members) (x : LogEntry) :
    Waits c a n { server := { c.server n with pending := (c.server n).pending.erase x } } where
  pending y kept := waiting.pending n member y (List.mem_of_mem_erase kept)
  taken := waiting.taken n member
  published := waiting.published n member
  handed _ last := Or.inl last
  acknowledged event := by cases event

theorem acknowledge_waits (waiting : Waiting m c a) (rel : Refines m c a)
    (member : n ∈ m.members) {x : LogEntry} (waits_for : x ∈ (c.server n).pending)
    (reached : x.index ≤ (c.server n).commitTx) :
    Waits c a n { server := { c.server n with pending := (c.server n).pending.erase x }
                  events := [.acknowledged n x] } where
  pending y kept := waiting.pending n member y (List.mem_of_mem_erase kept)
  taken := waiting.taken n member
  published := waiting.published n member
  handed _ last := Or.inl last
  acknowledged event := by
    cases List.mem_singleton.mp event
    have handed := reached.trans (waiting.published n member)
    exact ⟨(waiting.pending n member x waits_for).elim
      (rel.committed_of_applied member · handed) id, handed⟩

theorem effect_waits [LawfulBincode] (waiting : Waiting m c a) (rel : Refines m c a)
    (member : action.node ∈ m.members) (clean : CleanCrash action) (kept : KeepsPending c action)
    (acted : effect m c action = some e) : Waits c a action.node e := by
  cases effect_acts acted with
  | timeout n clock => exact waiting.grows member (timeout_unseen _ _) (timeout_grows rel member clock)
  | requestVote clock =>
    exact waiting.grows member (requestVote_unseen _ _ _) (requestVote_grows rel member clock)
  | voteAnswer => exact waiting.grows member (voteAnswer_unseen _ _ _) (voteAnswer_grows rel member)
  | propose n command => exact propose_waits waiting rel member command
  | build => exact waiting.grows member ⟨rfl, rfl, rfl, by simp⟩ (.refl _)
  | appendEntries clock sent => exact appendEntries_waits waiting rel member sent clock kept
  | appendAnswer =>
    exact waiting.grows member (appendAnswer_unseen _ _) (appendAnswer_grows rel member)
  | take n => exact take_waits waiting rel member
  | publish ends held => exact publish_waits waiting member held ends
  | acknowledge waits_for reached => exact acknowledge_waits waiting rel member waits_for reached
  | deadlineExceeded => exact deadlineExceeded_waits waiting member _
  | compact handed => exact compact_waits waiting rel member handed
  | crash restarted => exact restart_waits (crash_restarts rel member restarted)
  | crashUncompacted newer applied restarted =>
    exact restart_waits (crashUncompacted_restarts rel member newer applied restarted)
  | interrupt => exact clean.elim

theorem waiting_initial (start : Initial m c) : Waiting m c Consensus.initial := by
  have fresh (n : Nat) (member : n ∈ m.members) : (c.server n).pending = [] ∧
      (c.server n).taken = [] ∧ (c.server n).commitTx = 0 ∧ (c.core n).lastApplied = 0 := by
    obtain ⟨clock, core, restored, server⟩ := start.server n member
    obtain ⟨records, entries, read, loaded, _, rfl⟩ := restore_ok restored
    rw [Cluster.core, server]
    exact ⟨rfl, rfl, rfl, rfl⟩
  constructor
  · intro n member x waits_for
    simp [(fresh n member).1] at waits_for
  · intro n member batch held
    simp [(fresh n member).2.1] at held
  · intro n member
    simp [(fresh n member).2.2.1]
  · intro n member i first last
    rw [(fresh n member).2.2.2] at last
    omega
  · intro n x event
    simp [start.trace] at event

theorem undisturbed_step [LawfulBincode] (rel : Refines m c a) (waiting : Waiting m c a)
    (allowed : Undisturbed c action) (stepped : step m c action = some c') :
    ∃ a', Refines m c' a' ∧ Waiting m c' a' := by
  obtain ⟨member, e, acted, rfl⟩ := step_ok stepped
  obtain ⟨⟨leading, served, clean⟩, kept⟩ := allowed
  obtain ⟨a', moves⟩ := effect_moves rel member leading served clean acted
  exact ⟨a', rel.act member (effect_rules rel.elections member acted) moves,
    waiting.act rel member moves (effect_waits waiting rel member clean kept acted)⟩

theorem undisturbed_waiting [LawfulBincode] (run : Reachable m Undisturbed c) :
    ∃ a, Refines m c a ∧ Waiting m c a := by
  obtain ⟨start, initial, run⟩ := run
  exact run.invariant (P := fun c => ∃ a, Refines m c a ∧ Waiting m c a)
    ⟨_, refines_initial initial, waiting_initial initial⟩
    fun ⟨_, rel, waiting⟩ allowed stepped => undisturbed_step rel waiting allowed stepped

theorem Refines.committed_unique (rel : Refines m c a) {x : LogEntry} (committed : Committed a x)
    {t k : Nat} (commits : a.commits t k) (within : x.index ≤ k) :
    (a.hist t)[x.index - 1]? = some x := by
  obtain ⟨u, j, commits', first, last, found⟩ := committed
  rw [← found]
  exact Consensus.commits_agree rel.invariant commits commits' (by omega) (by omega)

end Runs

/-- A write that a client was told of is the write that committed: nodes hand out
its entry for its index and no other, and whenever a leader has moved its commit
index to there, this is the entry it had. -/
theorem acknowledged_write_committed [Bincode] [LawfulBincode] {m : Membership} {c : Cluster}
    (run : Reachable m Undisturbed c) {n : Nat} {x : LogEntry}
    (event : .acknowledged n x ∈ c.trace) :
    (∃ k, .applied k x.index x ∈ c.trace) ∧
    (∀ k y, .applied k x.index y ∈ c.trace → y = x) ∧
    ∀ leader, .committed leader ∈ c.trace → leader.snapshot.lastIncludedIndex < x.index →
      x.index ≤ leader.commitIndex → leader.entryAt x.index = some x := by
  obtain ⟨a, rel, waiting⟩ := undisturbed_waiting run
  obtain ⟨committed, k, z, handed⟩ := waiting.acknowledged event
  have only {k : Nat} {y : LogEntry} (applied : .applied k x.index y ∈ c.trace) : y = x := by
    obtain ⟨t, j, commits, _, last, found⟩ := rel.applied applied
    rw [rel.committed_unique committed commits last] at found
    exact (Option.some.inj found).symm
  refine ⟨⟨k, only handed ▸ handed⟩, fun _ _ => only, ?_⟩
  intro leader moved above within
  obtain ⟨commits, l, holds, reached, inside⟩ := rel.committed moved
  rw [holds.entryAt above, ← rel.committed_unique committed commits within]
  obtain ⟨rest, same⟩ := inside
  rw [← same, List.getElem?_append_left (by omega)]

/-- What the store and the clients see of an event: the node, the index if the
entry was handed out, and the entry. -/
def Event.seen : Event → Option (Nat × Option Nat × LogEntry)
  | .applied node index entry => some (node, some index, entry)
  | .acknowledged node entry => some (node, none, entry)
  | _ => none

theorem Event.applied_of_seen {trace : List Event} {n i : Nat} {x : LogEntry}
    (shown : (n, some i, x) ∈ trace.filterMap Event.seen) : .applied n i x ∈ trace := by
  obtain ⟨event, inside, same⟩ := List.mem_filterMap.mp shown
  cases event <;> simp only [Event.seen, reduceCtorEq, Option.some.injEq, Prod.mk.injEq] at same
  · obtain ⟨rfl, rfl, rfl⟩ := same
    exact inside
  · exact absurd same.2.1 (by simp)

theorem Event.acknowledged_of_seen {trace : List Event} {n : Nat} {x : LogEntry}
    (shown : (n, none, x) ∈ trace.filterMap Event.seen) : .acknowledged n x ∈ trace := by
  obtain ⟨event, inside, same⟩ := List.mem_filterMap.mp shown
  cases event <;> simp only [Event.seen, reduceCtorEq, Option.some.injEq, Prod.mk.injEq] at same
  · exact absurd same.2.1 (by simp)
  · obtain ⟨rfl, _, rfl⟩ := same
    exact inside

/-- Node 1 wins the first term and a client proposes to it. -/
def proposed : List Action :=
  [.timeout 1 ⟨0, 0⟩, .requestVote ⟨1, 2, ⟨1, 1, 0, 0⟩⟩ ⟨0, 0⟩, .voteAnswer ⟨2, 1, 1, ⟨1, true⟩⟩,
    .propose 1 (.put [1] [1])]

/-- The proposal is replicated to node 2, handed out and answered. -/
theorem acknowledged_write_committed_replicated : ∃ c, Reachable trio Undisturbed c ∧
    .acknowledged 1 ⟨1, 2, .put [1] [1]⟩ ∈ c.trace ∧
    ∃ k, .applied k 2 ⟨1, 2, .put [1] [1]⟩ ∈ c.trace := by
  have ran : ((Transition.execute (step trio) Undisturbed (boot trio ⟨0, 0⟩) (proposed ++
      [.build 1 2,
        .appendEntries ⟨1, 2, ⟨1, 1, 0, 0, [⟨1, 1, .noop⟩, ⟨1, 2, .put [1] [1]⟩], 0⟩⟩ ⟨0, 0⟩,
        .appendAnswer ⟨2, 1, 1, 2, ⟨1, true, 0⟩⟩, .take 1,
        .publish 1 [⟨1, 1, .noop⟩, ⟨1, 2, .put [1] [1]⟩],
        .acknowledge 1 ⟨1, 2, .put [1] [1]⟩])).any fun c =>
      decide ((1, none, ⟨1, 2, .put [1] [1]⟩) ∈ c.trace.filterMap Event.seen)) = true := by
    decide +kernel
  obtain ⟨c, reached, shown⟩ := boot_shows trio ⟨0, 0⟩ trio_timed ran
  have event := Event.acknowledged_of_seen (of_decide_eq_true shown)
  exact ⟨c, reached, event, (acknowledged_write_committed reached event).1⟩

/-- Before the proposal is replicated node 2 wins the second term with the vote of
node 3 and commits another entry at its index with node 1, which then answers
the client that still waits there. -/
theorem overwritten_write_acknowledged : ∃ c x y, Reachable trio Orderly c ∧
    .acknowledged 1 x ∈ c.trace ∧ .applied 1 x.index y ∈ c.trace ∧ y.index = x.index ∧
    y.term ≠ x.term ∧ y.command ≠ x.command := by
  have ran : ((Transition.execute (step trio) Orderly (boot trio ⟨0, 0⟩) (proposed ++
      [.timeout 2 ⟨0, 0⟩, .requestVote ⟨2, 3, ⟨2, 2, 0, 0⟩⟩ ⟨0, 0⟩,
        .voteAnswer ⟨3, 2, 2, ⟨2, true⟩⟩, .propose 2 (.put [1] [2]), .build 2 1,
        .appendEntries ⟨2, 1, ⟨2, 2, 0, 0, [⟨2, 1, .noop⟩, ⟨2, 2, .put [1] [2]⟩], 0⟩⟩ ⟨0, 0⟩,
        .appendAnswer ⟨1, 2, 2, 2, ⟨2, true, 0⟩⟩, .build 2 1,
        .appendEntries ⟨2, 1, ⟨2, 2, 2, 2, [], 2⟩⟩ ⟨0, 0⟩, .take 1,
        .publish 1 [⟨2, 1, .noop⟩, ⟨2, 2, .put [1] [2]⟩],
        .acknowledge 1 ⟨1, 2, .put [1] [1]⟩])).any fun c =>
      decide ((1, none, ⟨1, 2, .put [1] [1]⟩) ∈ c.trace.filterMap Event.seen ∧
        (1, some 2, ⟨2, 2, .put [1] [2]⟩) ∈ c.trace.filterMap Event.seen)) = true := by
    decide +kernel
  obtain ⟨c, reached, shown⟩ := boot_shows trio ⟨0, 0⟩ trio_timed ran
  obtain ⟨told, given⟩ := of_decide_eq_true shown
  exact ⟨c, ⟨1, 2, .put [1] [1]⟩, ⟨2, 2, .put [1] [2]⟩, reached, Event.acknowledged_of_seen told,
    Event.applied_of_seen given, rfl, by decide, by decide⟩

end WalKv
