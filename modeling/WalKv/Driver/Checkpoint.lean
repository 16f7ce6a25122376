import WalKv.Driver.Applying
import WalKv.Raft.Restart
import WalKv.Store.SnapshotLayout
import WalKv.Wal.Interruption

/-! Snapshot and compaction on disk. At the end of `apply_committed` the store writes a
snapshot and the core deletes the segments that the snapshot covers. Wherever the two
are interrupted, the files that are left give back the state they were taken from. -/
namespace WalKv

/-- A store over its snapshot files, and a core over its segments. -/
structure Replica where
  disk : SnapshotDisk
  memtable : MemTable
  snapshotThreshold : Nat
  lastSnapshot : SnapshotMeta
  core : RaftCore Log

namespace Replica
open RaftCore Driver

/-- `Store::should_snapshot`. -/
def shouldSnapshot (r : Replica) : Bool :=
  r.snapshotThreshold ≤ r.memtable.lastApplied - r.lastSnapshot.lastIncludedIndex

section Records
variable [Checksum] [Bincode] [SnapshotCodec]

omit [Checksum] [Bincode] in
/-- `Store::snapshot`. -/
def snapshot (lastIncludedTerm : Nat) : Fallible Stop Replica SnapshotMeta := do
  let r ← Fallible.get
  let snapshotMeta : SnapshotMeta := ⟨r.memtable.lastApplied, lastIncludedTerm⟩
  Fallible.part Replica.disk (fun disk r => { r with disk })
    (SnapshotDisk.write snapshotMeta r.memtable)
  Fallible.modify fun r => { r with lastSnapshot := snapshotMeta }
  pure snapshotMeta

/-- What `apply_committed` does once its batch is applied. -/
def checkpoint : Fallible Stop Replica Unit := do
  let r ← Fallible.get
  Fallible.when r.shouldSnapshot do
    let term := (r.core.termAt r.memtable.lastApplied).getD 0
    let snapshotMeta ← snapshot term
    Fallible.part Replica.core (fun core r => { r with core }) (RaftCore.compact snapshotMeta)

omit [Checksum] [Bincode] [SnapshotCodec] in
/-- The replica with these outcomes ahead of its operations on snapshots and segments. -/
def facing (onSnapshots onSegments : List Outcome) (r : Replica) : Replica where
  disk := { r.disk with outcomes := onSnapshots }
  memtable := r.memtable
  snapshotThreshold := r.snapshotThreshold
  lastSnapshot := r.lastSnapshot
  core := { r.core with log := { r.core.log with dir := { r.core.log.dir with outcomes := onSegments } } }

omit [Bincode] in
/-- The replica when a checkpoint has ended with these outcomes. -/
def interrupted (onSnapshots onSegments : List Outcome) (r : Replica) : Replica :=
  (checkpoint (r.facing onSnapshots onSegments)).2

/-- `Raft::bootstrap` on the files that are left. -/
def bootstrap (clock : Clock) (cfg : Config) (hardPath : HardFile) (snapshots : Listing Bytes)
    (dir : Dir) : Except Stop Replica := do
  let newest ← (SnapshotDisk.loadLatest snapshots).mapError .err
  let (lastSnapshot, memtable) := newest.getD (default, MemTable.new)
  let log ← (Log.open cfg.segmentMaxBytes dir).1
  let core ← restore clock cfg hardPath lastSnapshot log
  let files := snapshots.map fun (name, bytes) => (name, ⟨bytes, bytes.length⟩)
  pure ⟨⟨files, files, []⟩, memtable, cfg.snapshotThreshold, lastSnapshot, core⟩

/-- The snapshot at an index of the log. -/
def snapshotAt (l : List LogEntry) (index : Nat) : SnapshotFile :=
  ⟨⟨index, Consensus.termAt l index⟩, replay (l.take index)⟩

/-- The write-ahead log has all entries and is synced, the store holds the commands up to
its last applied index, and so does the newest snapshot up to an index before it. -/
structure Sound (r : Replica) (l : List LogEntry) : Prop where
  grounded : r.core.Grounded l false
  folded : Folded l r.memtable
  applied : r.core.snapshot.lastIncludedIndex ≤ r.memtable.lastApplied
  kept : ∃ newest : Option Nat, r.disk.Kept (snapshotAt l) newest ∧
    r.core.snapshot = (newest.map fun n => (snapshotAt l n).meta').getD default

/-- The replica comes back at an index, from which on it has all entries; those that were
applied rebuild the table. -/
structure Recovers (l : List LogEntry) (table : MemTable) (index : Nat) (r : Replica) : Prop where
  snapshot : r.lastSnapshot = ⟨index, Consensus.termAt l index⟩
  based : r.core.snapshot = r.lastSnapshot
  memtable : r.memtable = ⟨replay (l.take index), index⟩
  entries : r.core.entries = l.drop index
  reapplied : applyAll (r.core.entries.filter (·.index ≤ table.lastApplied)) r.memtable = table

omit [Checksum] [SnapshotCodec] in
theorem loadEntries_filter (snapshot : SnapshotMeta) (records : List (Nat × Bytes)) :
    loadEntries snapshot (records.filter (snapshot.lastIncludedIndex + 1 ≤ ·.1)) =
      loadEntries snapshot records := by
  induction records with
  | nil => rfl
  | cons record rest ih =>
    by_cases covered : record.1 ≤ snapshot.lastIncludedIndex
    · rw [List.filter_cons_of_neg (by simpa [Nat.lt_succ_iff] using covered), ih, loadEntries,
        if_pos covered]
    · rw [List.filter_cons_of_pos (by simpa [Nat.succ_le_iff] using covered), loadEntries, loadEntries,
        if_neg covered, if_neg covered, ih]

omit [Bincode] in
theorem checkpoint_run (r : Replica) {t : Nat} (stamp : r.core.termAt r.memtable.lastApplied = some t) :
    checkpoint r = if r.shouldSnapshot then
      match SnapshotDisk.write ⟨r.memtable.lastApplied, t⟩ r.memtable r.disk with
      | (.error stop, disk) => (.error stop, { r with disk })
      | (.ok (), disk) => ((RaftCore.compact ⟨r.memtable.lastApplied, t⟩ r.core).1, { r with
        disk
        core := (RaftCore.compact ⟨r.memtable.lastApplied, t⟩ r.core).2
        lastSnapshot := ⟨r.memtable.lastApplied, t⟩ })
    else (.ok (), r) := by
  simp only [checkpoint, Fallible.bind_run, Fallible.get_run, Fallible.when_run, snapshot,
    Fallible.part_run, stamp, Option.getD_some]
  split_ifs
  · rcases SnapshotDisk.write ⟨r.memtable.lastApplied, t⟩ r.memtable r.disk with ⟨_ | _, disk⟩ <;> rfl
  · rfl

variable {r : Replica} {l : List LogEntry} {snapshots : Listing Bytes} {dir : Dir} {index : Nat}
  {clock : Clock} {cfg : Config} {file : HardFile}

omit [Checksum] [Bincode] [SnapshotCodec] in
theorem reapply {table : MemTable} (indexed : Indexed l) (folded : Folded l table)
    (below : index ≤ table.lastApplied) :
    applyAll ((l.drop index).filter (·.index ≤ table.lastApplied)) ⟨replay (l.take index), index⟩ =
      table := by
  have within := folded.within
  have start : Folded l ⟨replay (l.take index), index⟩ := ⟨below.trans within, rfl⟩
  have batch : (l.drop index).filter (·.index ≤ table.lastApplied) =
      (l.take table.lastApplied).drop index := by
    rw [← indexed.filter_lt]
    simp only [Nat.lt_succ_iff]
  have slice : Slice l index ((l.take table.lastApplied).drop index) := by
    intro j e found
    rw [List.getElem?_drop, List.getElem?_take] at found
    split_ifs at found
    exact found
  obtain ⟨folded', last⟩ := start.applyAll indexed slice
  rw [batch]
  refine folded'.unique folded (last.trans ?_)
  simp only [List.length_drop, List.length_take]
  omega

omit [Bincode] [SnapshotCodec] in
theorem compact_log (snapshot : SnapshotMeta) (core : RaftCore Log) :
    (RaftCore.compact snapshot core).2.log =
      if core.snapshot.lastIncludedIndex < snapshot.lastIncludedIndex
      then (Log.truncatePrefix (snapshot.lastIncludedIndex + 1) core.log).2 else core.log := by
  simp only [RaftCore.compact, Fallible.bind_run, Fallible.get_run, Fallible.when_run]
  split_ifs
  · simp only [Fallible.modify_run, onLog, Fallible.part_run]
    rw [show (WalOps.truncatePrefix (snapshot.lastIncludedIndex + 1) : Fallible Stop Log Unit) =
      Log.truncatePrefix (snapshot.lastIncludedIndex + 1) from rfl]
    rcases Log.truncatePrefix (snapshot.lastIncludedIndex + 1) core.log with ⟨_ | _, log⟩ <;> rfl
  · rfl

omit [Checksum] [Bincode] [SnapshotCodec] in
theorem snapshotAt_applied (folded : Folded l r.memtable) :
    (⟨⟨r.memtable.lastApplied, Consensus.termAt l r.memtable.lastApplied⟩, r.memtable.map⟩ :
      SnapshotFile) = snapshotAt l r.memtable.lastApplied := by
  rw [snapshotAt, ← folded.map]

omit [Bincode] in
theorem checkpoint_cases [LawfulSnapshotCodec] (folded : Folded l r.memtable)
    (stamp : r.core.termAt r.memtable.lastApplied = some (Consensus.termAt l r.memtable.lastApplied))
    {newest : Option Nat} (kept : r.disk.Kept (snapshotAt l) newest)
    (above : ∀ n ∈ newest, n ≤ r.memtable.lastApplied) {lead : List Chunk} {active : Chunk}
    (laid : r.core.log.Laid lead active) (leaves : (checkpoint r).2.disk.MayLeave snapshots) :
    ∃ gone left newest', lead = gone ++ left ∧ (newest' = newest ∨ newest' = some r.memtable.lastApplied) ∧
      SnapshotDisk.loadLatest snapshots = .ok (newest'.map (SnapshotDisk.loaded ∘ snapshotAt l)) ∧
      (gone = [] ∨ r.core.log.firstIndex + (flat gone).length ≤ newest'.getD 0 + 1) ∧
      r.core.log.Cut (checkpoint r).2.core.log (left ++ [active]) := by
  have new := snapshotAt_applied folded
  have whole : r.core.log.Cut r.core.log (lead ++ [active]) :=
    .of_files laid.files rfl (List.Subset.refl _)
  rw [checkpoint_run r stamp] at leaves ⊢
  split_ifs at leaves ⊢ with due
  · rcases ran : SnapshotDisk.write ⟨r.memtable.lastApplied,
      Consensus.termAt l r.memtable.lastApplied⟩ r.memtable r.disk with ⟨_ | _, disk⟩ <;>
      rw [ran] at leaves
    · rcases kept.stopped new above ran leaves with loads | loads
      · exact ⟨[], lead, newest, rfl, .inl rfl, loads, .inl rfl, whole⟩
      · exact ⟨[], lead, some _, rfl, .inr rfl, loads, .inl rfl, whole⟩
    · have loads := (kept.written new above ran).load leaves
      simp only [compact_log]
      split_ifs
      · obtain ⟨gone, left, split, past, cut⟩ := laid.truncatePrefix_cut (r.memtable.lastApplied + 1)
        exact ⟨gone, left, some _, split, .inr rfl, loads, past, cut⟩
      · exact ⟨[], lead, some _, rfl, .inr rfl, loads, .inl rfl, whole⟩
  · exact ⟨[], lead, newest, rfl, .inl rfl, kept.load leaves, .inl rfl, whole⟩

namespace Sound

theorem stamp (sound : r.Sound l) :
    r.core.termAt r.memtable.lastApplied = some (Consensus.termAt l r.memtable.lastApplied) :=
  sound.grounded.holds.termAt sound.applied sound.folded.within

omit [Checksum] [Bincode] [SnapshotCodec] in
theorem newest_le {newest : Option Nat}
    (applied : r.core.snapshot.lastIncludedIndex ≤ r.memtable.lastApplied)
    (latest : r.core.snapshot = (newest.map fun n => (snapshotAt l n).meta').getD default) :
    ∀ n ∈ newest, n ≤ r.memtable.lastApplied := by
  rintro n rfl
  rw [latest] at applied
  exact applied

theorem recovers [LawfulBincode] (sound : r.Sound l) {newest : Option Nat}
    (below : newest.getD 0 ≤ r.memtable.lastApplied)
    (loads : SnapshotDisk.loadLatest snapshots =
      .ok (newest.map (SnapshotDisk.loaded ∘ snapshotAt l)))
    {flatLog : FlatLog} (backs : flatLog.Backs l) (reaches : flatLog.firstIndex ≤ newest.getD 0 + 1)
    {log log' : Log} {gone left : List Chunk} {active : Chunk} (laid : log.Laid (gone ++ left) active)
    (first : log.firstIndex = flatLog.firstIndex)
    (records : flat (gone ++ left ++ [active]) = flatLog.records) (synced : ∀ c ∈ gone ++ left ++ [active], c.Synced) (cut : log.Cut log' (left ++ [active]))
    (past : gone = [] ∨ log.firstIndex + (flat gone).length ≤ newest.getD 0 + 1)
    (segments : Log.MayLeave log log' dir)
    (timed : asMillis cfg.electionTimeout.start < asMillis cfg.electionTimeout.stop) :
    ∃ r', bootstrap clock cfg file snapshots dir = .ok r' ∧
      r'.Recovers l r.memtable (newest.getD 0) := by
  obtain ⟨log'', read, opened, ran, same⟩ := laid.reload synced cut past segments cfg.segmentMaxBytes
  have listing : Log.listed (gone ++ left ++ [active]) = flatLog.readAll := by
    rw [FlatLog.readAll_number, ← first, ← records]
    exact laid.contiguous.number
  have start : (newest.map (SnapshotDisk.loaded ∘ snapshotAt l)).getD (default, MemTable.new) =
      SnapshotDisk.loaded (snapshotAt l (newest.getD 0)) := by
    cases newest <;> rfl
  rw [listing] at same
  generalize newest.getD 0 = index at *
  have loaded := calc
    loadEntries (snapshotAt l index).meta' read =
        loadEntries (snapshotAt l index).meta' (read.filter (index + 1 ≤ ·.1)) :=
      (loadEntries_filter _ read).symm
    _ = loadEntries (snapshotAt l index).meta' (flatLog.readAll.filter (index + 1 ≤ ·.1)) :=
      congrArg _ same
    _ = loadEntries (snapshotAt l index).meta' flatLog.readAll := loadEntries_filter _ _
    _ = .ok (l.drop index) := backs.load reaches
  rw [bootstrap, loads]
  simp only [bind, Except.bind, Except.mapError, opened, start, SnapshotDisk.loaded]
  rw [restore_eq ran loaded timed]
  exact ⟨_, rfl, rfl, rfl, rfl, rfl, reapply sound.grounded.holds.indexed sound.folded below⟩

end Sound

/-- Wherever a checkpoint is interrupted, the replica comes back from the old snapshot or
the new one with all entries behind it. -/
theorem checkpoint_recovers [LawfulBincode] [LawfulSnapshotCodec] {r : Replica} {l : List LogEntry}
    (sound : r.Sound l) (onSnapshots onSegments : List Outcome) {snapshots : Listing Bytes} {dir : Dir}
    (disk : (r.interrupted onSnapshots onSegments).disk.MayLeave snapshots)
    (segments : Log.MayLeave r.core.log (r.interrupted onSnapshots onSegments).core.log dir)
    (clock : Clock) {cfg : Config}
    (timed : asMillis cfg.electionTimeout.start < asMillis cfg.electionTimeout.stop) :
    ∃ index r', (index = r.core.snapshot.lastIncludedIndex ∨ index = r.memtable.lastApplied) ∧
      bootstrap clock cfg r.core.hardPath snapshots dir = .ok r' ∧ r'.Recovers l r.memtable index := by
  obtain ⟨newest, kept, latest⟩ := sound.kept
  obtain ⟨flatLog, ⟨lead, active, laid, healthy, first, records, synced⟩, backs, reaches⟩ :=
    sound.grounded.recorded
  have place : r.core.snapshot.lastIncludedIndex = newest.getD 0 := by
    rw [latest]
    cases newest <;> rfl
  have applied := sound.applied
  rw [place] at reaches applied ⊢
  have faced : (r.facing onSnapshots onSegments).core.log.Laid lead active :=
    ⟨laid.segments, laid.files, laid.contiguous, laid.positive, laid.last, laid.full, laid.named⟩
  obtain ⟨gone, left, newest', rfl, choice, loads, past, cut⟩ :=
    checkpoint_cases (r := r.facing onSnapshots onSegments) sound.folded sound.stamp
      ⟨kept.whole, kept.named⟩ (Sound.newest_le sound.applied latest) faced disk
  have cut : r.core.log.Cut (r.interrupted onSnapshots onSegments).core.log (left ++ [active]) :=
    ⟨cut.files, cut.named, cut.segments⟩
  have chosen : newest'.getD 0 = newest.getD 0 ∨ newest'.getD 0 = r.memtable.lastApplied :=
    choice.imp (congrArg (Option.getD · 0)) (congrArg (Option.getD · 0))
  obtain ⟨r', started, recovered⟩ := sound.recovers (by omega) loads backs (by omega) laid first records
    (synced rfl) cut past segments timed
  exact ⟨_, r', chosen, started, recovered⟩

end Records

/-- Three entries, each in a segment of its own; the first is in a snapshot and the second
is applied. -/
def sampled : List LogEntry := [⟨1, 1, .put [1] [1]⟩, ⟨1, 2, .put [2] [2]⟩, ⟨1, 3, .delete [1]⟩]

/-- The segment of one entry. -/
def segmentOf (e : LogEntry)
    (small : ((Fixint.serialize e).toOption.getD []).length ≤ maxRecordLen) : Chunk :=
  .settled e.index [(Fixint.serialize e).toOption.getD []] (by simpa [Fits] using small)

def sampledLead : List Chunk :=
  [segmentOf ⟨1, 1, .put [1] [1]⟩ (by decide +kernel), segmentOf ⟨1, 2, .put [2] [2]⟩ (by decide +kernel)]

def sampledActive : Chunk := segmentOf ⟨1, 3, .delete [1]⟩ (by decide +kernel)

def sampledSnapshot : File :=
  let bytes := (Fixint.serializeSnapshot (snapshotAt sampled 1)).toOption.getD []
  ⟨bytes, bytes.length⟩

def sample : Replica :=
  let chunks := sampledLead ++ [sampledActive]
  let log : Log := ⟨⟨"wal", chunks.map Chunk.entry, [], []⟩, 1, chunks.map Chunk.segment, 1, 3⟩
  let snapshots : Listing File := [(.final 1, sampledSnapshot)]
  ⟨⟨snapshots, snapshots, []⟩, ⟨replay (sampled.take 2), 2⟩, 1, ⟨1, 1⟩,
    assemble ⟨0, 0⟩ Node.lone .absent ⟨1, 1⟩ log (sampled.drop 1)⟩

theorem sample_sound : sample.Sound sampled where
  grounded := by
    refine ⟨by decide +kernel, ⟨1, flat (sampledLead ++ [sampledActive])⟩, ⟨sampledLead, sampledActive,
      ⟨rfl, rfl, ⟨rfl, rfl, rfl, trivial⟩, le_rfl, rfl, ?_, rfl⟩, rfl, rfl, rfl, fun _ => ?_⟩,
      by decide +kernel, by decide +kernel⟩
    · simp [sampledLead, segmentOf, Chunk.settled]
    · simp [sampledLead, sampledActive, segmentOf, Chunk.settled_synced]
  folded := ⟨by decide, rfl⟩
  applied := by decide
  kept := by
    refine ⟨some 1, ⟨fun i f there => ?_, fun n same => ?_⟩, rfl⟩
    · have there : (SnapshotName.final i, f) ∈ [(SnapshotName.final 1, sampledSnapshot)] := there.elim id id
      cases List.mem_singleton.mp there
      exact ⟨⟨rfl, by decide +kernel⟩, 1, rfl, le_rfl⟩
    · cases same
      exact ⟨⟨sampledSnapshot, List.mem_singleton_self _⟩, ⟨sampledSnapshot, List.mem_singleton_self _⟩⟩

/-- The second snapshot is written and the first of two segments deleted when the replica
crashes. -/
theorem checkpoint_recovers_sample :
    let ended := sample.interrupted [] [.done, .crashed]
    ended.core.log.dir.files.map Prod.fst = [2, 3] ∧
      ended.disk.files.map Prod.fst = [.final 2] ∧
      ∃ index r', (index = 1 ∨ index = 2) ∧
        bootstrap ⟨0, 0⟩ Node.lone .absent (ended.disk.files.map fun (name, file) => (name, file.content))
          (ended.core.log.crash fun _ => 0) = .ok r' ∧ r'.Recovers sampled sample.memtable index :=
  ⟨by decide +kernel, by decide +kernel, checkpoint_recovers sample_sound [] [.done, .crashed]
    (SnapshotDisk.mayLeave_current _) ⟨rfl, rfl, fun _ => 0, by decide +kernel, List.Subset.refl _⟩
    ⟨0, 0⟩ (by decide)⟩

end Replica
end WalKv
