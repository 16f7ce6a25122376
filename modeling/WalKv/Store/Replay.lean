import WalKv.Store.Snapshot

/-! Recovery of the store: the newest snapshot and a replay of the commands behind
it. The replay may start at any index up to the one after the snapshot, because the
state machine skips what the snapshot already holds. -/
namespace WalKv

/-- The map that commands make of the empty one. -/
def fold (commands : List Command) : KvMap := commands.foldl (fun map c => c.run map) ∅

theorem fold_concat (commands : List Command) (c : Command) :
    fold (commands ++ [c]) = c.run (fold commands) := by
  rw [fold, List.foldl_append]
  rfl

/-- Whether a command decides what is stored under the key. -/
def Command.touches (key : Bytes) : Command → Prop
  | .put k _ => k = key
  | .delete k => k = key
  | .noop => False

/-- The value is that of the last put of the key, and no delete of it follows. -/
def Latest (key value : Bytes) (commands : List Command) : Prop :=
  ∃ before after, commands = before ++ .put key value :: after ∧
    ∀ c ∈ after, ¬ c.touches key

theorem Latest.concat {key value : Bytes} {commands : List Command} {c : Command} :
    Latest key value (commands ++ [c]) ↔
      c = .put key value ∨ ¬ c.touches key ∧ Latest key value commands := by
  constructor
  · rintro ⟨before, after, same, untouched⟩
    rcases List.eq_nil_or_concat after with rfl | ⟨front, last, rfl⟩
    · exact .inl (List.append_inj_right' same rfl |> List.singleton_inj.mp)
    · rw [List.concat_eq_append, ← List.cons_append, ← List.append_assoc] at same
      obtain ⟨rfl, lasts⟩ := List.append_inj' same rfl
      rw [List.singleton_inj.mp lasts]
      rw [List.concat_eq_append] at untouched
      exact .inr ⟨untouched last (by simp), before, front, rfl,
        fun c inside => untouched c (by simp [inside])⟩
  · rintro (rfl | ⟨free, before, after, rfl, untouched⟩)
    · exact ⟨commands, [], rfl, nofun⟩
    · refine ⟨before, after ++ [c], by simp, fun x inside => ?_⟩
      rcases List.mem_append.mp inside with old | new
      · exact untouched x old
      · rwa [List.mem_singleton.mp new]

theorem lookup_fold {key value : Bytes} {commands : List Command} :
    (fold commands).lookup key = some value ↔ Latest key value commands := by
  induction commands using List.reverseRecOn with
  | nil =>
    refine ⟨fun found => ?_, fun ⟨before, after, same, _⟩ => ?_⟩
    · rw [fold, List.foldl_nil, Finmap.lookup_empty] at found
      cases found
    · simp at same
  | append_singleton commands c ih =>
    rw [fold_concat, Latest.concat]
    cases c with
    | put k v =>
      by_cases same : k = key
      · subst same
        simp [Command.run, Command.touches, Finmap.lookup_insert]
      · simp [Command.run, Command.touches, same, Ne.symm same, ih]
    | delete k =>
      by_cases same : k = key
      · subst same
        simp [Command.run, Command.touches]
      · simp [Command.run, Command.touches, same, Ne.symm same, ih]
    | noop => simp [Command.run, Command.touches, ih]

namespace MemTable

/-- The table after commands that were applied at their own indices. -/
def ofCommands (commands : List Command) : MemTable := ⟨fold commands, commands.length⟩

theorem apply_next (commands : List Command) (c : Command) :
    (ofCommands commands).apply (commands.length + 1) c = ofCommands (commands ++ [c]) := by
  have beyond : ¬ commands.length + 1 ≤ (ofCommands commands).lastApplied := Nat.not_succ_le_self _
  rw [apply, if_neg beyond, ofCommands, ofCommands, fold_concat, List.length_append,
    List.length_singleton]

theorem apply_again {commands : List Command} {index : Nat} (passed : index ≤ commands.length)
    (c : Command) : (ofCommands commands).apply index c = ofCommands commands :=
  if_pos passed

end MemTable

namespace Store

/-- Apply commands at the indices from `start` on. -/
def replay : Nat → List Command → Store → Store
  | _, [], store => store
  | start, c :: rest, store => replay (start + 1) rest (store.apply start c)

/-- What happens to a store before it is reopened. -/
inductive Event where
  | apply (command : Command)
  | snapshot (lastIncludedTerm : Nat) (removed : SnapshotFile → Bool)

def Event.command? : Event → Option Command
  | .apply command => some command
  | .snapshot .. => none

/-- Commands are applied at the indices from `start` on, with snapshots in between. -/
def run : Nat → List Event → Store → Store
  | _, [], store => store
  | start, .apply command :: rest, store => run (start + 1) rest (store.apply start command)
  | start, .snapshot lastIncludedTerm removed :: rest, store =>
    run start rest (store.snapshot lastIncludedTerm removed).2

theorem replay_append (start : Nat) (first rest : List Command) (store : Store) :
    store.replay start (first ++ rest) = (store.replay start first).replay (start + first.length) rest := by
  induction first generalizing start store with
  | nil => rfl
  | cons c first ih =>
    rw [List.cons_append, replay, replay, ih, List.length_cons, Nat.add_assoc, Nat.add_comm 1]

theorem replay_again {store : Store} {held : List Command}
    (table : store.memtable = .ofCommands held) {start : Nat} {again : List Command}
    (passed : start + again.length ≤ held.length + 1) : store.replay start again = store := by
  induction again generalizing start with
  | nil => rfl
  | cons c again ih =>
    rw [List.length_cons] at passed
    have skipped : store.apply start c = store := by
      rw [apply, table, MemTable.apply_again (by omega), ← table]
    rw [replay, skipped, ih (by omega)]

theorem replay_next {store : Store} {held : List Command}
    (table : store.memtable = .ofCommands held) (later : List Command) :
    (store.replay (held.length + 1) later).memtable = .ofCommands (held ++ later) := by
  induction later generalizing store held with
  | nil => rw [replay, table, List.append_nil]
  | cons c later ih =>
    have applied : (store.apply (held.length + 1) c).memtable = .ofCommands (held ++ [c]) := by
      rw [apply, table, MemTable.apply_next]
    have next := ih applied
    rw [List.length_append, List.length_singleton, List.append_assoc] at next
    exact next

theorem replay_completes {store : Store} {held commands : List Command}
    (table : store.memtable = .ofCommands held) (along : held <+: commands) {start : Nat}
    (positive : 1 ≤ start) (reaches : start ≤ held.length + 1) :
    (store.replay start (commands.drop (start - 1))).memtable = .ofCommands commands := by
  obtain ⟨later, rfl⟩ := along
  have again : start + (held.drop (start - 1)).length = held.length + 1 := by
    rw [List.length_drop]
    omega
  rw [List.drop_append_of_le_length (by omega), replay_append, again,
    replay_again table again.le, replay_next table]

/-- The table and every snapshot hold the commands up to their own index. -/
structure Holds (store : Store) (commands : List Command) : Prop where
  table : store.memtable = .ofCommands commands
  files : ∀ file ∈ store.snapshotDir, ∃ held, held <+: commands ∧
    file.meta'.lastIncludedIndex = held.length ∧ file.data = fold held

namespace Holds
variable {store : Store} {commands : List Command}

theorem apply (holds : store.Holds commands) (c : Command) :
    (store.apply (commands.length + 1) c).Holds (commands ++ [c]) := by
  refine ⟨?_, fun file inside => ?_⟩
  · rw [Store.apply, holds.table, MemTable.apply_next]
  · obtain ⟨held, along, index, data⟩ := holds.files file inside
    exact ⟨held, along.trans (List.prefix_append _ _), index, data⟩

theorem snapshot (holds : store.Holds commands) (lastIncludedTerm : Nat)
    (removed : SnapshotFile → Bool) : (store.snapshot lastIncludedTerm removed).2.Holds commands := by
  refine ⟨holds.table, fun file inside => ?_⟩
  rcases List.mem_cons.mp inside with rfl | old
  · refine ⟨commands, List.prefix_rfl, ?_, ?_⟩ <;> rw [holds.table] <;> rfl
  · exact holds.files file (List.mem_of_mem_filter old)

theorem run {start : Nat} (events : List Event) (holds : store.Holds commands)
    (next : start = commands.length + 1) :
    (Store.run start events store).Holds (commands ++ events.filterMap Event.command?) := by
  induction events generalizing start store commands with
  | nil => simpa [Store.run] using holds
  | cons event events ih =>
    cases event with
    | apply c =>
      subst next
      have later := ih (holds.apply c) (by rw [List.length_append, List.length_singleton])
      rwa [List.append_assoc] at later
    | snapshot lastIncludedTerm removed => exact ih (holds.snapshot lastIncludedTerm removed) next

theorem opened_snapshot (holds : store.Holds commands) (lastIncludedTerm snapshotThreshold : Nat)
    (removed : SnapshotFile → Bool) :
    (Store.opened snapshotThreshold
      (store.snapshot lastIncludedTerm removed).2.snapshotDir).memtable = .ofCommands commands := by
  have newest : SnapshotDir.newest (store.snapshot lastIncludedTerm removed).2.snapshotDir =
      some ⟨⟨store.memtable.lastApplied, lastIncludedTerm⟩, store.memtable.map⟩ := by
    refine SnapshotDir.newest_cons fun other inside => ?_
    obtain ⟨old, kept⟩ := List.mem_filter.mp inside
    obtain ⟨held, along, index, _⟩ := holds.files other old
    have shorter := along.length_le
    have last : store.memtable.lastApplied = commands.length := by rw [holds.table]; rfl
    have distinct : other.meta'.lastIncludedIndex ≠ store.memtable.lastApplied := by
      simp only [Bool.and_eq_true, decide_eq_true_eq] at kept
      exact kept.1
    show other.meta'.lastIncludedIndex < store.memtable.lastApplied
    omega
  rw [Store.opened, SnapshotDir.loadLatest, newest]
  exact holds.table

end Holds

theorem holds_empty (snapshotThreshold : Nat) : (Store.opened snapshotThreshold []).Holds [] :=
  ⟨rfl, nofun⟩

/-- A store that is reopened from a snapshot and replays commands it may partly hold
is the store that applied all commands once; a key has the value of its last put that
no delete follows. -/
theorem snapshot_replay (snapshotThreshold lastIncludedTerm : Nat) (removed : SnapshotFile → Bool)
    (events : List Event) (commands : List Command)
    (along : events.filterMap Event.command? <+: commands) (start : Nat) (positive : 1 ≤ start)
    (reaches : start ≤ (events.filterMap Event.command?).length + 1) :
    let taken := ((run 1 events (opened snapshotThreshold [])).snapshot lastIncludedTerm removed).2
    let recovered := (opened snapshotThreshold taken.snapshotDir).replay start (commands.drop (start - 1))
    let full := (opened snapshotThreshold []).replay 1 commands
    recovered.memtable.map = full.memtable.map ∧ (∀ key, recovered.get key = full.get key) ∧
      recovered.len = full.len ∧ recovered.lastApplied = full.lastApplied ∧
      full.lastApplied = commands.length ∧
      ∀ key value, recovered.get key = some value ↔ Latest key value commands := by
  intro taken recovered full
  have holds := (holds_empty snapshotThreshold).run events rfl
  rw [List.nil_append] at holds
  have again : recovered.memtable = .ofCommands commands :=
    replay_completes (holds.opened_snapshot lastIncludedTerm snapshotThreshold removed) along
      positive reaches
  have once : full.memtable = .ofCommands commands :=
    replay_completes (holds_empty snapshotThreshold).table List.nil_prefix le_rfl le_rfl
  have same : recovered.memtable = full.memtable := again.trans once.symm
  refine ⟨congrArg MemTable.map same, fun key => congrArg (MemTable.get key) same,
    congrArg MemTable.len same, congrArg MemTable.lastApplied same, ?_, fun key value => ?_⟩
  · rw [lastApplied, once]
    rfl
  · rw [get, again]
    exact lookup_fold

/-- Two snapshots, the first of which is not removed; the replay starts one index
before it has to. -/
theorem snapshot_replay_overlap :
    let taken := ((run 1 [.apply (.put [1] [1]), .snapshot 1 fun _ => false, .apply (.delete [1])]
      (opened 2 [])).snapshot 1 fun _ => false).2
    taken.snapshotDir.length = 2 ∧
      ((opened 2 taken.snapshotDir).replay 2 [.delete [1], .put [2] [2]]).memtable.map =
        ((opened 2 []).replay 1 [.put [1] [1], .delete [1], .put [2] [2]]).memtable.map :=
  ⟨by decide +kernel, (snapshot_replay 2 1 (fun _ => false)
    [.apply (.put [1] [1]), .snapshot 1 fun _ => false, .apply (.delete [1])]
    [.put [1] [1], .delete [1], .put [2] [2]] ⟨[.put [2] [2]], rfl⟩ 2 (by decide) (by decide)).1⟩

end Store
end WalKv
