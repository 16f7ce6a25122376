import WalKv.Driver.Speaking
import WalKv.Raft.Lookup

/-! What reaches the store. Batches are taken under the core lock and applied
under the store lock, so they may be applied in another order than they were
taken in, and the state machine skips every index it has already passed. The
store is the fold of the committed commands as long as every batch that is
applied starts right behind the last applied index. -/
namespace WalKv

/-- The map that a list of entries makes. -/
def replay (l : List LogEntry) : KvMap := l.foldl (fun map e => e.command.run map) ∅

theorem replay_concat (l : List LogEntry) (e : LogEntry) :
    replay (l ++ [e]) = e.command.run (replay l) := by
  simp [replay]

namespace Driver
open RaftCore Transition

variable {h : List LogEntry} {s s' : State} {thread : Nat}

/-- Entries of the history from position `start` on. -/
def Slice (h : List LogEntry) (start : Nat) (batch : List LogEntry) : Prop :=
  ∀ j e, batch[j]? = some e → h[start + j]? = some e

/-- The table is the fold of the history up to its last applied index. -/
structure Folded (h : List LogEntry) (table : MemTable) : Prop where
  within : table.lastApplied ≤ h.length
  map : table.map = replay (h.take table.lastApplied)

/-- The store, and every snapshot it has written, is the fold of the committed
commands up to its own index. -/
structure Applied (h : List LogEntry) (store : Store) : Prop where
  table : Folded h store.memtable
  files : ∀ file ∈ store.snapshotDir,
    Folded h (MemTable.fromParts file.data file.meta'.lastIncludedIndex)

/-- Every committed entry that the core can look up is the history's. -/
def Agrees (h : List LogEntry) (core : Core) : Prop :=
  ∀ i < core.commitIndex, ∀ e ∈ core.entryAt (i + 1), h[i]? = some e

instance (h : List LogEntry) (core : Core) : Decidable (Agrees h core) :=
  inferInstanceAs (Decidable (∀ i < core.commitIndex, _))

theorem Folded.apply {table : MemTable} {e : LogEntry} (folded : Folded h table)
    (indexed : Indexed h) (found : h[table.lastApplied]? = some e) :
    Folded h (table.apply e.index e.command) ∧
      (table.apply e.index e.command).lastApplied = table.lastApplied + 1 := by
  have index := indexed _ e found
  obtain ⟨bound, same⟩ := List.getElem?_eq_some_iff.mp found
  have moved : table.apply e.index e.command =
      ⟨e.command.run table.map, table.lastApplied + 1⟩ := by
    rw [MemTable.apply, if_neg (by omega), index]
  rw [moved]
  refine ⟨⟨bound, ?_⟩, rfl⟩
  rw [folded.map, List.take_add_one, found]
  exact (replay_concat _ _).symm

/-- Apply a batch to the table in order. -/
def applyAll (batch : List LogEntry) (table : MemTable) : MemTable :=
  batch.foldl (fun table e => table.apply e.index e.command) table

theorem applyBatch_eq (batch : List LogEntry) (store : Store) :
    applyBatch batch store = { store with memtable := applyAll batch store.memtable } := by
  induction batch generalizing store with
  | nil => rfl
  | cons e batch ih => exact ih (store.apply e.index e.command)

theorem applyAll_covers (batch : List LogEntry) (table : MemTable) :
    table.lastApplied ≤ (applyAll batch table).lastApplied ∧
      ∀ x ∈ batch, x.index ≤ (applyAll batch table).lastApplied := by
  induction batch generalizing table with
  | nil => exact ⟨le_rfl, by simp⟩
  | cons e rest ih =>
    have applied : table.lastApplied ≤ (table.apply e.index e.command).lastApplied ∧
        e.index ≤ (table.apply e.index e.command).lastApplied := by
      unfold MemTable.apply
      split_ifs with old
      · exact ⟨le_rfl, old⟩
      · exact ⟨Nat.le_of_not_le old, le_rfl⟩
    obtain ⟨grows, covers⟩ := ih (table.apply e.index e.command)
    refine ⟨applied.1.trans grows, ?_⟩
    intro x inside
    rcases List.mem_cons.mp inside with rfl | later
    · exact applied.2.trans grows
    · exact covers x later

theorem applyBatch_covers (batch : List LogEntry) (store : Store) :
    store.lastApplied ≤ (applyBatch batch store).lastApplied ∧
      ∀ x ∈ batch, x.index ≤ (applyBatch batch store).lastApplied := by
  rw [applyBatch_eq]
  exact applyAll_covers batch store.memtable

theorem Folded.applyAll {table : MemTable} {batch : List LogEntry} (folded : Folded h table)
    (indexed : Indexed h) (slice : Slice h table.lastApplied batch) :
    Folded h (applyAll batch table) ∧
      (Driver.applyAll batch table).lastApplied = table.lastApplied + batch.length := by
  induction batch generalizing table with
  | nil => exact ⟨folded, rfl⟩
  | cons e batch ih =>
    obtain ⟨next, moved⟩ := folded.apply indexed (slice 0 e rfl)
    obtain ⟨folded', last⟩ := ih next fun j x found => by
      have there := slice (j + 1) x (by simpa using found)
      rwa [moved, Nat.add_assoc, Nat.add_comm 1]
    refine ⟨folded', last.trans ?_⟩
    rw [moved, List.length_cons]
    omega

theorem Folded.unique {table other : MemTable} (folded : Folded h table) (folded' : Folded h other)
    (same : table.lastApplied = other.lastApplied) : table = other := by
  obtain ⟨map, last⟩ := table
  obtain ⟨map', last'⟩ := other
  cases same
  exact congrArg (MemTable.mk · last) (folded.map.trans folded'.map.symm)

theorem Applied.snapshot {store : Store} (applied : Applied h store) (term : Nat)
    (removed : SnapshotFile → Bool) : Applied h (store.snapshot term removed).2 where
  table := applied.table
  files file member := by
    rcases List.mem_cons.mp member with rfl | old
    · exact applied.table
    · exact applied.files file (List.mem_filter.mp old).1

theorem Applied.takeSnapshot {store : Store} (applied : Applied h store) (term : Nat)
    (outcome : SnapshotOutcome) : Applied h (store.takeSnapshot term outcome).2 := by
  cases outcome with
  | written removed => exact applied.snapshot term removed
  | failed => exact applied
  | left => exact ⟨applied.table, (applied.snapshot term _).files⟩

theorem Applied.applyBatch {store : Store} {batch : List LogEntry} (applied : Applied h store)
    (indexed : Indexed h) (slice : Slice h store.lastApplied batch) :
    Applied h (applyBatch batch store) ∧
      (Driver.applyBatch batch store).lastApplied = store.lastApplied + batch.length := by
  rw [applyBatch_eq]
  obtain ⟨table, last⟩ := applied.table.applyAll indexed slice
  exact ⟨⟨table, applied.files⟩, last⟩

theorem Applied.opened {dir : SnapshotDir} (threshold : Nat) (files : ∀ file ∈ dir,
    Folded h (MemTable.fromParts file.data file.meta'.lastIncludedIndex)) :
    Applied h (Store.opened threshold dir) := by
  unfold Store.opened SnapshotDir.loadLatest
  cases newest : dir.newest with
  | none => exact ⟨⟨Nat.zero_le _, rfl⟩, files⟩
  | some file => exact ⟨files file (SnapshotDir.newest_mem newest), files⟩

theorem Folded.mono {table : MemTable} {h' : List LogEntry} (folded : Folded h table)
    (longer : h <+: h') : Folded h' table where
  within := folded.within.trans longer.length_le
  map := by rw [Consensus.prefix_take longer folded.within, folded.map]

theorem Applied.mono {store : Store} {h' : List LogEntry} (applied : Applied h store)
    (longer : h <+: h') : Applied h' store where
  table := applied.table.mono longer
  files file member := (applied.files file member).mono longer

theorem take_slice {core : Core} {k : Nat} (agrees : Agrees h core)
    (within : core.lastApplied + k ≤ core.commitIndex) :
    Slice h core.lastApplied (takeLoop k core).1 := by
  induction k generalizing core with
  | zero =>
    intro j e found
    simp [takeLoop] at found
  | succ k ih =>
    intro j e found
    cases here : core.entryAt (core.lastApplied + 1) with
    | none => simp [takeLoop, here] at found
    | some entry =>
      simp only [takeLoop, here] at found
      cases j with
      | zero =>
        cases found
        exact agrees core.lastApplied (by omega) e here
      | succ j =>
        have advanced : Agrees h { core with lastApplied := core.lastApplied + 1 } := agrees
        have later := ih advanced (by simp only; omega) j e (by simpa using found)
        rwa [show core.lastApplied + (j + 1) = core.lastApplied + 1 + j by omega]

/-- Every batch on its way to the store is a slice of the history. -/
def Queued (h : List LogEntry) (s : State) : Prop :=
  ∀ i batch, s.pc i = some (.storing batch) → ∃ start, Slice h start batch

/-- The store is untouched, and no batch is added to those on their way to it. -/
structure Untouched (s s' : State) : Prop where
  store : s'.store = s.store
  batches : ∀ i batch, s'.pc i = some (.storing batch) → s.pc i = some (.storing batch)

theorem goto_batch {i : Nat} {pc : Pc} {batch : List LogEntry}
    (found : (s.goto thread pc).pc i = some (.storing batch)) :
    s.pc i = some (.storing batch) ∨ pc = .storing batch := by
  simp only [State.pc, State.goto, List.getElem?_set] at found
  split_ifs at found with here within
  · exact Or.inr (Option.some.inj found)
  · exact Or.inl found

theorem Untouched.goto {pc : Pc} (store : s'.store = s.store) (threads : s'.threads = s.threads)
    (elsewhere : ∀ batch, pc ≠ .storing batch) : Untouched s (s'.goto thread pc) where
  store := store
  batches i batch found := by
    rcases goto_batch found with old | new
    · rwa [State.pc, threads] at old
    · exact absurd new (elsewhere batch)

theorem Untouched.idle (store : s'.store = s.store) (threads : s'.threads = s.threads) :
    Untouched s (s'.idle thread) := by
  refine .goto store threads fun batch => ?_
  split_ifs <;> simp

theorem Untouched.added {core : Core} {pc : Pc} (elsewhere : ∀ batch, pc ≠ .storing batch) :
    Untouched s { s with core, threads := s.threads ++ [pc] } where
  store := rfl
  batches i batch found := by
    simp only [State.pc, List.getElem?_append] at found
    split_ifs at found
    · exact found
    · exact absurd (List.mem_singleton.mp (List.mem_of_getElem? found)).symm (elsewhere batch)

theorem Untouched.same {core : Core} {tasks : List (Nat × Nat)} :
    Untouched s { s with core, tasks } := ⟨rfl, fun _ _ found => found⟩

variable {action : Action}

/-- The only steps that touch the store or add a batch are the three sections of
`apply_committed`. -/
inductive Stores (s : State) : Action → State → Prop where
  | other {a : Action} {t : State} : Untouched s t → Stores s a t
  | take (thread : Nat) : Stores s (.take thread) (takeStep thread s)
  | store (thread : Nat) (batch : List LogEntry) : s.pc thread = some (.storing batch) →
      Stores s (.store thread) (storeStep thread batch s)
  | snapshot (thread latest : Nat) (outcome : SnapshotOutcome) :
      Stores s (.snapshot thread outcome) (snapshotStep thread latest outcome s)

theorem vote_untouched [Bincode] (peer : Nat) (reply : RequestVoteReply) (campaign : Campaign) (s : State) :
    Untouched s (voteStep peer reply campaign s) := by
  unfold voteStep
  split_ifs
  · split <;> exact .goto rfl rfl (by simp)
  · exact .goto rfl rfl (by simp)
  · unfold winStep
    split <;> exact .goto rfl rfl (by simp)
  all_goals exact .goto rfl rfl (by simp)

theorem reply_untouched (peer lastSent : Nat) (reply : AppendEntriesReply) (broadcast : Broadcast)
    (s : State) : Untouched s (replyStep thread peer lastSent reply broadcast s) := by
  unfold replyStep
  by_cases newer : s.core.hard.currentTerm < reply.term
  · rw [if_pos newer]
    split
    · exact .goto rfl rfl (by simp)
    · refine .goto rfl rfl fun batch => ?_
      split_ifs <;> simp
  · rw [if_neg newer]
    split
    · exact .goto rfl rfl (by simp)
    · exact .goto rfl rfl (by simp)

theorem step_stores [Bincode] (stepped : step s action = some s') : Stores s action s' := by
  cases step_does stepped with
  | tick =>
    refine .other ?_
    unfold tickStep
    split_ifs <;> exact .goto rfl rfl (by simp)
  | campaign =>
    refine .other ?_
    unfold campaignStep
    split <;> exact .goto rfl rfl (by simp)
  | vote => exact .other (vote_untouched _ _ _ s)
  | propose =>
    refine .other ?_
    unfold proposeStep
    split_ifs
    · split <;> exact .added (by simp)
    · exact .added (by simp)
  | build =>
    refine .other ?_
    unfold buildStep
    split
    · exact .goto rfl rfl (by simp)
    · exact ⟨rfl, fun _ _ found => found⟩
  | reply => exact .other (reply_untouched _ _ _ _ s)
  | broadcastOver =>
    refine .other ?_
    unfold broadcastOverStep
    split_ifs <;> exact .goto rfl rfl (by simp)
  | take => exact .take _
  | store here => exact .store _ _ here
  | snapshot => exact .snapshot _ _ _
  | compact =>
    refine .other ?_
    unfold compactStep
    split
    · exact .goto rfl rfl (by simp)
    · exact .idle rfl rfl
  | publish => exact .other (.idle rfl rfl)
  | voteLost | campaignOver | broadcast | replyLost => exact .other (.goto rfl rfl (by simp))
  | abort | requestVote | appendEntries => exact .other .same

/-- A batch reaches the store only when it starts right behind the last applied
index. -/
def inOrder (s : State) : Action → Bool
  | .store thread =>
    match s.pc thread with
    | some (.storing batch) =>
      batch.head?.map LogEntry.index = some (s.store.lastApplied + 1)
    | _ => true
  | _ => true

/-- What the core has committed after the step comes from the history. -/
def Commits [Bincode] (h : List LogEntry) (s : State) (action : Action) : Prop :=
  ∀ s', step s action = some s' → Agrees h s'.core

instance [Bincode] (h : List LogEntry) (s : State) (action : Action) :
    Decidable (Commits h s action) :=
  match next : step s action with
  | none => isTrue fun _ stepped => by simp [next] at stepped
  | some t => decidable_of_iff (Agrees h t.core)
      ⟨fun agrees s' stepped => by cases next.symm.trans stepped; exact agrees,
        fun commits => commits t next⟩

structure Faithful (h : List LogEntry) (s : State) : Prop where
  agrees : Agrees h s.core
  queued : Queued h s
  applied : Applied h s.store

namespace Faithful

theorem other (faithful : Faithful h s) (agrees : Agrees h s'.core) (untouched : Untouched s s') :
    Faithful h s' where
  agrees := agrees
  queued i batch found := faithful.queued i batch (untouched.batches i batch found)
  applied := untouched.store ▸ faithful.applied

theorem take (faithful : Faithful h s) (agrees : Agrees h (takeStep thread s).core) :
    Faithful h (takeStep thread s) := by
  by_cases empty : s.core.takeCommitted.1 = []
  · have same : takeStep thread s = { s with core := s.core.takeCommitted.2 }.idle thread := by
      simp only [takeStep, if_pos empty]
    exact faithful.other agrees (same ▸ .idle rfl rfl)
  · have same : takeStep thread s = { s with core := s.core.takeCommitted.2 }.goto thread
        (.storing s.core.takeCommitted.1) := by
      simp only [takeStep, if_neg empty]
    refine ⟨agrees, fun i batch found => ?_, by rw [same]; exact faithful.applied⟩
    rw [same] at found
    rcases goto_batch found with old | new
    · exact faithful.queued i batch old
    · cases new
      by_cases behind : s.core.lastApplied ≤ s.core.commitIndex
      · exact ⟨_, take_slice faithful.agrees (by omega)⟩
      · rw [takeCommitted, show s.core.commitIndex - s.core.lastApplied = 0 by omega] at empty
        exact absurd rfl empty

theorem store {batch : List LogEntry} (faithful : Faithful h s) (indexed : Indexed h)
    (agrees : Agrees h (storeStep thread batch s).core)
    (waits : s.pc thread = some (.storing batch))
    (first : batch.head?.map LogEntry.index = some (s.store.lastApplied + 1)) :
    Faithful h (storeStep thread batch s) := by
  refine ⟨agrees, fun i other found => ?_, ?_⟩
  · rcases goto_batch found with old | new
    · exact faithful.queued i other old
    · split_ifs at new
  · obtain ⟨start, slice⟩ := faithful.queued thread batch waits
    have here : start = s.store.lastApplied := by
      cases batch with
      | nil => cases first
      | cons e batch =>
        have index := indexed _ e (slice 0 e rfl)
        simp only [List.head?_cons, Option.map_some, Option.some.injEq] at first
        omega
    exact (faithful.applied.applyBatch indexed (here ▸ slice)).1

theorem step [Bincode] (faithful : Faithful h s) (indexed : Indexed h)
    (ordered : inOrder s action = true) (commits : Commits h s action)
    (stepped : Driver.step s action = some s') : Faithful h s' := by
  have agrees := commits s' stepped
  cases step_stores stepped with
  | other untouched => exact faithful.other agrees untouched
  | take thread => exact faithful.take agrees
  | store thread batch waits =>
    rw [inOrder, waits] at ordered
    exact faithful.store indexed agrees waits (of_decide_eq_true ordered)
  | snapshot thread latest outcome =>
    have taken := faithful.applied.takeSnapshot ((s.core.termAt s.store.lastApplied).getD 0) outcome
    have stored : Faithful h { s with store := (s.store.takeSnapshot _ outcome).2 } :=
      ⟨faithful.agrees, faithful.queued, taken⟩
    cases outcome with
    | written removed => exact stored.other agrees (.goto rfl rfl (by simp))
    | failed | left => exact stored.other agrees (.idle rfl rfl)

end Faithful

theorem faithful_bootstrap [Bincode] {clock : Clock} {cfg : Config} {file : HardFile}
    {dir : SnapshotDir} {log : FlatLog} (started : bootstrap clock cfg file dir log = .ok s)
    (files : ∀ file ∈ dir, Folded h (MemTable.fromParts file.data file.meta'.lastIncludedIndex)) :
    Faithful h s := by
  obtain ⟨core, restored, started⟩ := Except.of_bind_ok started
  cases started
  obtain ⟨records, entries, _, _, _, rfl⟩ := restore_ok restored
  refine ⟨fun i below e found => ?_, fun i batch found => ?_, ?_⟩
  · have covered : i < (Store.opened cfg.snapshotThreshold dir).lastSnapshot.lastIncludedIndex :=
      below
    simp [entryAt, baseIndex, armed, assemble, covered] at found
  · cases i with
    | zero => cases found
    | succ i => cases found
  · exact .opened cfg.snapshotThreshold files

/-- In every run in which each batch reaches the store right behind the last
applied index, the store and its snapshots are folds of the committed commands. -/
theorem store_is_fold [Bincode] {clock : Clock} {cfg : Config} {file : HardFile}
    {dir : SnapshotDir} {log : FlatLog} {start : State} (indexed : Indexed h)
    (started : bootstrap clock cfg file dir log = .ok start)
    (files : ∀ file ∈ dir, Folded h (MemTable.fromParts file.data file.meta'.lastIncludedIndex))
    (run : Reaches step (fun s action => inOrder s action = true ∧ Commits h s action) start s) :
    Applied h s.store :=
  (run.invariant (faithful_bootstrap started files)
    fun faithful ⟨ordered, commits⟩ stepped =>
      faithful.step indexed ordered commits stepped).applied

/-- Two proposals of one leader commit one after the other, each takes its own
batch, and both wait for the store. -/
def proposing : List Action :=
  winning ++
  [.propose (.put [1] [1]), .broadcast 1, .build 1 2, .build 1 3, .replyLost 1 3,
    .reply 1 2 ⟨1, true, 0⟩, .broadcastOver 1 0, .take 1,
    .propose (.put [2] [2]), .broadcast 2, .build 2 2, .build 2 3, .replyLost 2 3,
    .reply 2 2 ⟨1, true, 0⟩, .broadcastOver 2 0, .take 2]

def proposed : List LogEntry :=
  [⟨1, 1, .noop⟩, ⟨1, 2, .put [1] [1]⟩, ⟨1, 3, .put [2] [2]⟩]

theorem store_is_fold_in_order : ∃ start s,
    bootstrap ⟨0, 0⟩ (trio.config 1) HardFile.absent [] FlatLog.empty = .ok start ∧
    Reaches step (fun s action => inOrder s action = true ∧ Commits proposed s action) start s ∧
    s.store.lastApplied = 3 ∧ Applied proposed s.store := by
  have ran : ((execute step (fun s action => inOrder s action = true ∧ Commits proposed s action)
      fresh (proposing ++ [.store 1, .store 2])).any
      fun s => decide (s.store.lastApplied = 3)) = true := by
    decide +kernel
  obtain ⟨s, reached, shown⟩ := execute_shows ran
  exact ⟨fresh, s, fresh_bootstrap, reached, of_decide_eq_true shown,
    store_is_fold (by decide) fresh_bootstrap (by simp) reached⟩

/-- The second proposal reaches the store first. All calls return, and the first
command is missing from the map. -/
theorem overtaken_batch_is_lost : ∃ start s,
    bootstrap ⟨0, 0⟩ (trio.config 1) HardFile.absent [] FlatLog.empty = .ok start ∧
    Indexed proposed ∧ Reaches step (Commits proposed) start s ∧
    s.threads = [.tick, .done, .done] ∧ s.store.lastApplied = 3 ∧ ¬ Applied proposed s.store := by
  have ran : ((execute step (Commits proposed) fresh
      (proposing ++ [.store 2, .store 1, .publish 2, .publish 1])).any
      fun s => decide (s.threads = [.tick, .done, .done] ∧ s.store.lastApplied = 3 ∧
        s.store.get [1] = none)) = true := by
    decide +kernel
  obtain ⟨s, reached, shown⟩ := execute_shows ran
  obtain ⟨finished, last, missing⟩ := of_decide_eq_true shown
  refine ⟨fresh, s, fresh_bootstrap, by decide, reached, finished, last, fun applied => ?_⟩
  have last : s.store.memtable.lastApplied = 3 := last
  have map := applied.table.map
  rw [last] at map
  have missing : s.store.memtable.map.lookup [1] = none := missing
  rw [map] at missing
  exact absurd missing (by decide +kernel)

end Driver
end WalKv
