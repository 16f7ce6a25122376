import WalKv.Raft.Leases
import WalKv.Consensus.Retention
import WalKv.Cluster.Simulation
import WalKv.Driver.Snapshotting

/-! A driver next to the server that stands for it in the cluster. Between two of its locked sections
a thread relies on little: that its campaign still runs, that its broadcast is not ahead of the
term, that its batch was taken, that a snapshot's term is still right. What the other threads do
meanwhile leaves that alone. -/
namespace WalKv
open RaftCore Transition

section Cluster
variable [Bincode] {m : Membership} {c : Cluster} {a : Spec} {e : Effect} {action : Action}

theorem effect_applied (rel : Refines m c a) (member : action.node ∈ m.members)
    (clean : CleanCrash action) (acted : effect m c action = some e)
    (running : ∀ n clock, action ≠ .crash n clock)
    (compacted : ∀ n clock index, action ≠ .crashUncompacted n clock index) :
    (c.core action.node).lastApplied ≤ e.server.core.lastApplied := by
  cases effect_acts acted with
  | timeout n clock => exact (timeout_grows rel member clock).lastApplied.ge
  | requestVote clock => exact (requestVote_grows rel member clock).lastApplied.ge
  | voteAnswer => exact (voteAnswer_grows rel member).lastApplied.ge
  | propose n command => exact (propose_grows command).lastApplied.ge
  | @appendEntries call clock sent =>
    obtain ⟨core, reply, ended, outcome⟩ := appendEntries_cases rel member sent clock
    rw [ended]
    rcases outcome with ⟨rfl, _⟩ | ⟨ledger, _⟩ | stored
    · exact le_rfl
    · exact ledger.grows.lastApplied.ge
    · exact stored.lastApplied.ge
  | appendAnswer => exact (appendAnswer_grows rel member).lastApplied.ge
  | take n =>
    have member : n ∈ m.members := member
    have taken : (c.core n).takeCommitted.2.lastApplied = (c.core n).commitIndex := by
      rw [rel.takeCommitted member]
    exact (rel.node n member).applied.trans taken.ge
  | build | publish | acknowledge | deadlineExceeded => exact le_rfl
  | @compact n index applied =>
    have member : n ∈ m.members := member
    rcases compact_cases rel member applied with same | ⟨core, ran, same, _⟩
    · exact (congrArg RaftCore.lastApplied same).ge
    · have kept : core.lastApplied = (c.core n).lastApplied := by rw [same]
      exact (congrArg RaftCore.lastApplied ran).trans kept |>.ge
  | @crash n clock => exact absurd rfl (running n clock)
  | @crashUncompacted n clock index => exact absurd rfl (compacted n clock index)
  | interrupt => exact clean.elim

/-- The snapshot stays, and so do the terms of what was handed out. -/
structure Stable (core core' : Core) : Prop where
  snapshot : core'.snapshot = core.snapshot
  terms : ∀ i, core.snapshot.lastIncludedIndex ≤ i → i ≤ core.lastApplied →
    core'.termAt i = core.termAt i

theorem effect_stable [LawfulBincode] (rel : Refines m c a) (member : action.node ∈ m.members)
    (orderly : Orderly c action) (plain : NoSnapshot action) (acted : effect m c action = some e)
    (running : ∀ n clock, action ≠ .crash n clock) :
    Stable (c.core action.node) e.server.core := by
  obtain ⟨leading, served, clean⟩ := orderly
  obtain ⟨a', moves⟩ := effect_moves rel member leading served clean acted
  have rel' := rel.act member (effect_rules rel.elections member acted) moves
  have progress := effect_progress rel member clean plain acted running
  have stands := rel.node action.node member
  have known := rel.known action.node
  have known' := rel'.known action.node
  rw [stands.commit] at known
  rw [moves.node.commit] at known'
  have kept := known.stays rel.invariant (Consensus.steps_extends moves.steps) rel'.invariant
    (known'.shorter progress.commit)
  refine ⟨progress.snapshot, ?_⟩
  intro i above below
  have order := stands.applied
  have within := known.within rel.invariant
  have within' := known'.within rel'.invariant
  have longer := progress.commit
  rw [stands.sound.holds.termAt above (by omega),
    moves.node.sound.holds.termAt (by rw [progress.snapshot]; exact above) (by omega),
    ← Consensus.termAt_take (a.log action.node) (show i ≤ (c.core action.node).commitIndex by omega),
    ← Consensus.termAt_take (a'.log action.node) (show i ≤ (c.core action.node).commitIndex by omega),
    kept]

theorem effect_term [LawfulBincode] (rel : Refines m c a) (member : action.node ∈ m.members)
    (orderly : Orderly c action) (acted : effect m c action = some e) :
    (c.core action.node).hard.currentTerm ≤ e.server.core.hard.currentTerm := by
  obtain ⟨leading, served, clean⟩ := orderly
  obtain ⟨a', moves⟩ := effect_moves rel member leading served clean acted
  have grown := (Consensus.steps_extends moves.steps).term action.node
  rwa [(rel.node action.node member).term, moves.node.term] at grown

end Cluster

/-- What a store has applied and has on disk, next to its core: the newest snapshot is of an entry that
was applied and that the core can still tell the term of. -/
structure Shelved (core : Core) (store : Store) : Prop where
  applied : store.lastApplied ≤ core.lastApplied
  stored : store.snapshotDir.latest.lastIncludedIndex ≤ store.lastApplied
  above : core.snapshot.lastIncludedIndex ≤ store.snapshotDir.latest.lastIncludedIndex
  term : core.termAt store.snapshotDir.latest.lastIncludedIndex =
    some store.snapshotDir.latest.lastIncludedTerm

namespace Shelved
variable {core core' : Core} {store : Store}

theorem stable (shelf : Shelved core store) (stable : Stable core core')
    (applied : core.lastApplied ≤ core'.lastApplied) : Shelved core' store where
  applied := shelf.applied.trans applied
  stored := shelf.stored
  above := by
    rw [stable.snapshot]
    exact shelf.above
  term := by
    rw [stable.terms _ shelf.above (shelf.stored.trans shelf.applied)]
    exact shelf.term

theorem applyBatch_snapshotDir (batch : List LogEntry) (store : Store) :
    (Driver.applyBatch batch store).snapshotDir = store.snapshotDir := by
  induction batch generalizing store with
  | nil => rfl
  | cons x batch ih => exact ih (store.apply x.index x.command)

theorem applyBatch (shelf : Shelved core store) {batch : List LogEntry}
    (indices : ∀ x ∈ batch, x.index ≤ core.lastApplied) :
    Shelved core (Driver.applyBatch batch store) := by
  have same := applyBatch_snapshotDir batch store
  obtain ⟨longer, within⟩ := Applier.applyBatch_lastApplied shelf.applied indices
  refine ⟨within, ?_, ?_, ?_⟩ <;> rw [same]
  · exact shelf.stored.trans longer
  · exact shelf.above
  · exact shelf.term

theorem takeSnapshot (shelf : Shelved core store) {term : Nat}
    (stamped : core.termAt store.lastApplied = some term) (outcome : SnapshotOutcome) :
    Shelved core (store.takeSnapshot term outcome).2 := by
  have written (removed : SnapshotFile → Bool) :
      Shelved core (store.snapshot term removed).2 := by
    have latest : (store.snapshot term removed).2.snapshotDir.latest = ⟨store.lastApplied, term⟩ :=
      SnapshotDir.latest_write shelf.stored _ _
    refine ⟨shelf.applied, ?_, ?_, ?_⟩ <;> rw [latest]
    · exact le_rfl
    · exact shelf.above.trans shelf.stored
    · exact stamped
  cases outcome with
  | written removed => exact written removed
  | failed => exact shelf
  | left => exact ⟨shelf.applied, (written _).stored, (written _).above, (written _).term⟩

end Shelved

namespace Driver

/-- The index that a thread is to publish. -/
def Pc.latest : Pc → Option Nat
  | .storing batch => some ((batch.getLast?.map LogEntry.index).getD 0)
  | .snapshotting latest | .compacting latest _ | .publishing latest => some latest
  | .tick | .elect | .campaigning _ | .replicate | .broadcasting _ | .apply | .done => none

/-- A batch with that last index was taken and is not published. -/
structure Held (server : Server) (latest : Nat) : Prop where
  applied : latest ≤ server.core.lastApplied
  taken : ∃ batch ∈ server.taken, ∃ last, batch.getLast? = some last ∧ last.index = latest

/-- What a thread relies on where it is. -/
def Fits (server : Server) (store : Store) (calls : List (Nat × AppendCall)) (thread : Nat) :
    Pc → Prop
  | .campaigning campaign => thread = 0 ∧ ∃ running, server.campaign = some running ∧
      running.term = campaign.term ∧ running.votes = campaign.votes ∧
      campaign.waiting.Subperm running.waiting
  | .broadcasting broadcast => broadcast.term ≤ server.core.hard.currentTerm ∧
      ∀ call ∈ calls, call.1 = thread → broadcast.term ≤ call.2.args.term
  | .storing batch => Held server ((batch.getLast?.map LogEntry.index).getD 0) ∧
      ∀ x ∈ batch, x.index ≤ server.core.lastApplied
  | .snapshotting latest | .publishing latest => Held server latest
  | .compacting latest snapshotMeta =>
    Held server latest ∧ store.snapshotDir.latest = snapshotMeta
  | .tick | .elect | .replicate | .apply | .done => True

/-- A thread there relies on nothing. -/
def Pc.plain : Pc → Bool
  | .tick | .elect | .replicate | .apply | .done => true
  | .campaigning _ | .broadcasting _ | .storing _ | .snapshotting _ | .compacting .. | .publishing _ =>
    false

def Pc.compacts : Pc → Bool
  | .compacting .. => true
  | _ => false

theorem Pc.plain_latest {pc : Pc} (plain : pc.plain = true) : pc.latest = none := by
  cases pc <;> simp_all [Pc.plain, Pc.latest]

theorem Pc.plain_holdsStore {pc : Pc} (plain : pc.plain = true) : pc.holdsStore = false := by
  cases pc <;> simp_all [Pc.plain, Pc.holdsStore]

theorem Pc.plain_fits {server : Server} {store : Store} {calls : List (Nat × AppendCall)}
    {thread : Nat} {pc : Pc} (plain : pc.plain = true) : Fits server store calls thread pc := by
  cases pc <;> simp_all [Pc.plain, Fits]

theorem Pc.plain_ite {p : Prop} [Decidable p] {pc pc' : Pc} (left : pc.plain = true)
    (right : pc'.plain = true) : (if p then pc else pc').plain = true := by
  split_ifs
  · exact left
  · exact right

/-- A driver's state next to that of the server in the cluster. -/
structure Carries (cfg : Config) (server : Server) (s : State) (calls : List (Nat × AppendCall)) :
    Prop where
  core : Releases server.core s.core
  fits : ∀ thread pc, s.pc thread = some pc → Fits server s.store calls thread pc
  distinct : ∀ i j p q l, s.pc i = some p → s.pc j = some q → p.latest = some l →
    q.latest = some l → i = j
  single : ∀ i j p q, s.pc i = some p → s.pc j = some q → p.holdsStore = true →
    q.holdsStore = true → i = j
  shelf : Shelved server.core s.store
  commitTx : s.commitTx = server.commitTx
  tasks : ∀ task ∈ s.tasks, task.2 ∈ cfg.peerIds
  calls : ∀ call ∈ calls, call.2.args.term ≤ server.core.hard.currentTerm

variable {cfg : Config} {server server' : Server} {s s' : State} {calls calls' : List (Nat × AppendCall)}
  {thread : Nat} {pc : Pc}

/-- One thread goes on to `pc`; the others stay where they are. -/
def Moved (s s' : State) (thread : Nat) (pc : Pc) : Prop :=
  ∀ j q, s'.pc j = some q → j = thread ∧ q = pc ∨ j ≠ thread ∧ s.pc j = some q

theorem moved_set (threads : s'.threads = s.threads.set thread pc) : Moved s s' thread pc := by
  intro j q found
  rw [State.pc, threads, List.getElem?_set] at found
  split_ifs at found with here inside
  · exact .inl ⟨here.symm, (Option.some.inj found).symm⟩
  · exact .inr ⟨Ne.symm here, found⟩

theorem moved_added (threads : s'.threads = s.threads ++ [pc]) :
    Moved s s' s.threads.length pc := by
  intro j q found
  rw [State.pc, threads, List.getElem?_append] at found
  split_ifs at found with inside
  · exact .inr ⟨by omega, found⟩
  · have last : j - s.threads.length = 0 := by
      have bound := (List.getElem?_eq_some_iff.mp found).1
      simpa using bound
    rw [last] at found
    exact .inl ⟨by omega, (Option.some.inj found).symm⟩

theorem moved_none (threads : s'.threads = s.threads) : Moved s s' s.threads.length .done := by
  intro j q found
  rw [State.pc, threads] at found
  have bound := (List.getElem?_eq_some_iff.mp found).1
  exact .inr ⟨by omega, found⟩

/-- What the server has to keep for the threads that do not move. -/
structure Keeps (s : State) (server server' : Server) (thread : Nat) : Prop where
  applied : server.core.lastApplied ≤ server'.core.lastApplied
  term : server.core.hard.currentTerm ≤ server'.core.hard.currentTerm
  shelf : Shelved server.core s.store → Shelved server'.core s.store
  taken : ∀ batch ∈ server.taken, batch ∈ server'.taken ∨
    ∃ last q, batch.getLast? = some last ∧ s.pc thread = some q ∧ q.latest = some last.index
  campaign : thread = 0 ∨ server'.campaign = server.campaign

theorem Keeps.same (s : State) (server : Server) (thread : Nat) : Keeps s server server thread :=
  ⟨le_rfl, le_rfl, id, fun _ held => .inl held, .inr rfl⟩

namespace Carries

theorem held (carries : Carries cfg server s calls) (keeps : Keeps s server server' thread) {j l : Nat}
    {q : Pc} (here : s.pc j = some q) (other : j ≠ thread) (latest : q.latest = some l)
    (held : Held server l) : Held server' l := by
  obtain ⟨applied, batch, listed, last, ends, index⟩ := held
  refine ⟨applied.trans keeps.applied, batch, ?_, last, ends, index⟩
  rcases keeps.taken batch listed with kept | ⟨last', p, ends', here', latest'⟩
  · exact kept
  · cases ends.symm.trans ends'
    rw [index] at latest'
    exact absurd (carries.distinct j thread q p l here here' latest latest') other

/-- The other threads still have what they rely on. -/
theorem fits_other (carries : Carries cfg server s calls) (keeps : Keeps s server server' thread)
    (fresh : ∀ call ∈ calls', call ∈ calls ∨ call.1 = thread)
    (disk : s'.store = s.store ∨ ∀ j q, s.pc j = some q → j ≠ thread → q.compacts = false)
    {j : Nat} {q : Pc} (here : s.pc j = some q) (other : j ≠ thread) :
    Fits server' s'.store calls' j q := by
  have fits := carries.fits j q here
  cases q with
  | tick | elect | replicate | apply | done => trivial
  | campaigning campaign =>
    obtain ⟨rfl, running, runs, rest⟩ := fits
    refine ⟨rfl, running, ?_, rest⟩
    rcases keeps.campaign with zero | same
    · exact absurd zero.symm other
    · rw [same]
      exact runs
  | broadcasting broadcast =>
    obtain ⟨term, above⟩ := fits
    refine ⟨term.trans keeps.term, ?_⟩
    intro call listed owner
    rcases fresh call listed with old | new
    · exact above call old owner
    · exact absurd (owner.symm.trans new) other
  | storing batch =>
    obtain ⟨held, indices⟩ := fits
    exact ⟨carries.held keeps here other rfl held,
      fun x inside => (indices x inside).trans keeps.applied⟩
  | snapshotting latest => exact carries.held keeps here other rfl fits
  | publishing latest => exact carries.held keeps here other rfl fits
  | compacting latest snapshotMeta =>
    obtain ⟨held, written⟩ := fits
    refine ⟨carries.held keeps here other rfl held, ?_⟩
    rcases disk with same | none
    · rw [same]
      exact written
    · exact absurd (none j _ here other) (by simp [Pc.compacts])

/-- One thread goes on, and the server with it. -/
theorem next (carries : Carries cfg server s calls) (moved : Moved s s' thread pc)
    (keeps : Keeps s server server' thread) (core : Releases server'.core s'.core)
    (fits : Fits server' s'.store calls' thread pc)
    (latest : ∀ l, pc.latest = some l → (∃ p, s.pc thread = some p ∧ p.latest = some l) ∨
      ∀ j q, s.pc j = some q → q.latest ≠ some l)
    (holds : pc.holdsStore = true → (∃ p, s.pc thread = some p ∧ p.holdsStore = true) ∨
      ∀ j q, s.pc j = some q → q.holdsStore = false)
    (fresh : ∀ call ∈ calls', call ∈ calls ∨
      call.1 = thread ∧ call.2.args.term ≤ server'.core.hard.currentTerm)
    (disk : s'.store = s.store ∨ ∀ j q, s.pc j = some q → j ≠ thread → q.compacts = false)
    (shelf : Shelved server'.core s'.store)
    (commitTx : s'.commitTx = server'.commitTx) (tasks : ∀ task ∈ s'.tasks, task.2 ∈ cfg.peerIds) :
    Carries cfg server' s' calls' where
  core
  fits j q found := by
    rcases moved j q found with ⟨rfl, rfl⟩ | ⟨other, here⟩
    · exact fits
    · exact carries.fits_other keeps (fun call listed => (fresh call listed).imp_right And.left)
        disk here other
  distinct := by
    have apart {j l : Nat} {q : Pc} (here : s.pc j = some q) (other : j ≠ thread)
        (own : pc.latest = some l) : q.latest ≠ some l := by
      intro same
      rcases latest l own with ⟨p, before, carried⟩ | unseen
      · exact other (carries.distinct j thread q p l here before same carried)
      · exact unseen j q here same
    intro i j p q l first second left right
    rcases moved i p first with ⟨rfl, rfl⟩ | ⟨otherI, hereI⟩ <;>
      rcases moved j q second with ⟨rfl, rfl⟩ | ⟨otherJ, hereJ⟩
    · rfl
    · exact absurd right (apart hereJ otherJ left)
    · exact absurd left (apart hereI otherI right)
    · exact carries.distinct i j p q l hereI hereJ left right
  single := by
    have apart {j : Nat} {q : Pc} (here : s.pc j = some q) (other : j ≠ thread)
        (own : pc.holdsStore = true) : q.holdsStore ≠ true := by
      intro same
      rcases holds own with ⟨p, before, carried⟩ | unseen
      · exact other (carries.single j thread q p here before same carried)
      · rw [unseen j q here] at same
        cases same
    intro i j p q first second left right
    rcases moved i p first with ⟨rfl, rfl⟩ | ⟨otherI, hereI⟩ <;>
      rcases moved j q second with ⟨rfl, rfl⟩ | ⟨otherJ, hereJ⟩
    · rfl
    · exact absurd right (apart hereJ otherJ left)
    · exact absurd left (apart hereI otherI right)
    · exact carries.single i j p q hereI hereJ left right
  shelf
  commitTx
  tasks
  calls call listed := by
    rcases fresh call listed with old | ⟨_, bound⟩
    · exact (carries.calls call old).trans keeps.term
    · exact bound

theorem goes (carries : Carries cfg server s calls) (moved : Moved s s' thread pc)
    (plain : pc.plain = true) (keeps : Keeps s server server' thread)
    (core : Releases server'.core s'.core) (store : s'.store = s.store)
    (same : server'.commitTx = server.commitTx) (commitTx : s'.commitTx = s.commitTx)
    (tasks : ∀ task ∈ s'.tasks, task ∈ s.tasks) : Carries cfg server' s' calls := by
  refine carries.next moved keeps core ?_ ?_ ?_ (fun _ => .inl) (.inl store) ?_ ?_
    fun task listed => carries.tasks task (tasks task listed)
  · exact Pc.plain_fits plain
  · intro l latest
    rw [Pc.plain_latest plain] at latest
    cases latest
  · intro holds
    rw [Pc.plain_holdsStore plain] at holds
    cases holds
  · rw [store]
    exact keeps.shelf carries.shelf
  · rw [commitTx, same]
    exact carries.commitTx

theorem stutters (carries : Carries cfg server s calls) (moved : Moved s s' thread pc)
    (plain : pc.plain = true) (core : Releases server.core s'.core)
    (store : s'.store = s.store) (commitTx : s'.commitTx = s.commitTx)
    (tasks : ∀ task ∈ s'.tasks, task ∈ s.tasks) : Carries cfg server s' calls :=
  carries.goes moved plain (.same _ _ _) core store rfl commitTx tasks

theorem tick (carries : Carries cfg server s calls) (now : Nat) :
    Carries cfg server (tickStep now s) calls := by
  unfold tickStep
  split_ifs
  all_goals exact carries.stutters (moved_set rfl) rfl carries.core rfl rfl fun _ => id

theorem voteLost (carries : Carries cfg server s calls) {campaign : Campaign} (peer : Nat)
    (here : s.pc 0 = some (.campaigning campaign)) :
    Carries cfg server (s.goto 0 (.campaigning (campaign.heard peer 0))) calls := by
  obtain ⟨_, running, runs, term, votes, waiting⟩ := carries.fits 0 _ here
  refine carries.next (moved_set rfl) (.same _ _ _) carries.core ?_ (by simp [Pc.latest])
    (by simp [Pc.holdsStore]) (fun _ => .inl) (.inl rfl) carries.shelf carries.commitTx
    carries.tasks
  exact ⟨rfl, running, runs, term, votes, (List.erase_subperm _ _).trans waiting⟩

theorem replyLost (carries : Carries cfg server s calls) {broadcast : Broadcast}
    (here : s.pc thread = some (.broadcasting broadcast)) (waiting : List (Nat × Nat)) :
    Carries cfg server (s.goto thread (.broadcasting { broadcast with waiting })) calls := by
  have fits := carries.fits thread _ here
  exact carries.next (moved_set rfl) (.same _ _ _) carries.core fits (by simp [Pc.latest])
    (by simp [Pc.holdsStore]) (fun _ => .inl) (.inl rfl) carries.shelf carries.commitTx
    carries.tasks

theorem broadcastOver (carries : Carries cfg server s calls) (now : Nat) (broadcast : Broadcast) :
    Carries cfg server (broadcastOverStep thread now broadcast s) calls := by
  unfold broadcastOverStep
  split_ifs
  · exact carries.stutters (moved_set rfl) rfl (carries.core.renewLease now) rfl rfl fun _ => id
  · exact carries.stutters (moved_set rfl) rfl carries.core rfl rfl fun _ => id

theorem broadcast (carries : Carries cfg server s calls) (peers : s.core.peers = cfg.peerIds) :
    Carries cfg server (broadcastStep thread s) (calls.filter (·.1 ≠ thread)) := by
  obtain ⟨lease, same⟩ := carries.core
  refine carries.next (moved_set rfl) (.same _ _ _) carries.core ?_ (by simp [Pc.latest])
    (by simp [Pc.holdsStore]) ?_ (.inl rfl) carries.shelf carries.commitTx ?_
  · refine ⟨?_, ?_⟩
    · rw [same]
    · intro call listed owner
      simp only [List.mem_filter, owner] at listed
      simp at listed
  · intro call listed
    exact .inl (List.mem_filter.mp listed).1
  · intro task listed
    rcases List.mem_append.mp listed with old | new
    · exact carries.tasks task old
    · obtain ⟨peer, member, rfl⟩ := List.mem_map.mp new
      rw [← peers]
      exact member

theorem store (carries : Carries cfg server s calls) {batch : List LogEntry}
    (here : s.pc thread = some (.storing batch)) (unlocked : ¬ s.threads.any Pc.holdsStore = true) :
    Carries cfg server (storeStep thread batch s) calls := by
  obtain ⟨held, indices⟩ := carries.fits thread _ here
  have free : ∀ j q, s.pc j = some q → q.holdsStore = false := by
    intro j q found
    by_contra holds
    exact unlocked (List.any_eq_true.mpr ⟨q, List.mem_of_getElem? found, by simpa using holds⟩)
  refine carries.next (moved_set rfl) (.same _ _ _) carries.core ?_ ?_ (fun _ => .inr free)
    (fun _ => .inl) (.inr ?_) (carries.shelf.applyBatch indices) carries.commitTx carries.tasks
  · split_ifs
    · exact held
    · exact held
  · intro l latest
    refine .inl ⟨_, here, ?_⟩
    split_ifs at latest
    · exact latest
    · exact latest
  · intro j q found _
    by_contra compacts
    have holds := free j q found
    cases q <;> simp_all [Pc.compacts, Pc.holdsStore]

/-- The thread that has the store to itself is the only one that compacts. -/
theorem alone (carries : Carries cfg server s calls) (here : s.pc thread = some pc)
    (holds : pc.holdsStore = true) :
    ∀ j q, s.pc j = some q → j ≠ thread → q.compacts = false := by
  intro j q found other
  by_contra compacts
  have also : q.holdsStore = true := by
    cases q <;> simp_all [Pc.compacts, Pc.holdsStore]
  exact other (carries.single j thread q pc found here also holds)

theorem snapshot (carries : Carries cfg server s calls) {latest term : Nat}
    (here : s.pc thread = some (.snapshotting latest)) (outcome : SnapshotOutcome)
    (stamped : server.core.termAt s.store.lastApplied = some term) :
    Carries cfg server (snapshotStep thread latest outcome s) calls := by
  have looked : (s.core.termAt s.store.lastApplied).getD 0 = term := by
    obtain ⟨lease, same⟩ := carries.core
    rw [same]
    exact congrArg (Option.getD · 0) stamped
  have shelf := carries.shelf.takeSnapshot stamped outcome
  have alone := carries.alone here rfl
  have held := carries.fits thread _ here
  unfold snapshotStep
  rw [looked]
  cases outcome with
  | failed | left =>
    have plain : (if thread = 0 then Pc.tick else Pc.done).plain = true := Pc.plain_ite rfl rfl
    refine carries.next (moved_set rfl) (.same _ _ _) carries.core (Pc.plain_fits plain) ?_ ?_
      (fun _ => .inl) (.inr alone) shelf carries.commitTx carries.tasks
    · intro l own
      rw [Pc.plain_latest plain] at own
      cases own
    · intro holds
      rw [Pc.plain_holdsStore plain] at holds
      cases holds
  | written removed =>
    refine carries.next (moved_set rfl) (.same _ _ _) carries.core ⟨held, ?_⟩
      (fun l own => .inl ⟨_, here, own⟩) (fun _ => .inl ⟨_, here, rfl⟩) (fun _ => .inl)
      (.inr alone) shelf carries.commitTx carries.tasks
    exact SnapshotDir.latest_write carries.shelf.stored _ _

end Carries
end Driver
end WalKv
