import WalKv.Raft.Compaction
import WalKv.Raft.FailedReplication

/-! A compaction whose cut of the write-ahead log fails. The entries are dropped before it and
the snapshot marker, by which they are looked up, moves after it. -/
namespace WalKv
namespace RaftCore

section Failures
variable {W : Type} [WalOps W] {core core' : RaftCore W} {snapshotMeta : SnapshotMeta} {stop : Stop}

/-- A compaction that fails changes what is found behind its index, unless it had nothing to drop.
In a log without gaps it always has, if there are entries at all. -/
theorem failed_compact_unmoved
    (newer : core.snapshot.lastIncludedIndex < snapshotMeta.lastIncludedIndex)
    (failed : compact snapshotMeta core = (.error stop, core')) :
    ((∀ e ∈ core.entries, snapshotMeta.lastIncludedIndex < e.index) →
        Unmoved snapshotMeta.lastIncludedIndex core core') ∧
      (core.Contiguous →
        (Unmoved snapshotMeta.lastIncludedIndex core core' ↔ core.entries = [])) := by
  rw [compact_newer newer] at failed
  rcases ran : WalOps.truncatePrefix (snapshotMeta.lastIncludedIndex + 1) core.log with
    ⟨stop' | ⟨⟩, log⟩ <;> rw [ran] at failed
  · obtain ⟨-, rfl⟩ := Prod.mk.inj failed
    have kept : (∀ e ∈ core.entries, snapshotMeta.lastIncludedIndex < e.index) →
        Unmoved snapshotMeta.lastIncludedIndex core { core with
          log, entries := core.entries.filter (snapshotMeta.lastIncludedIndex < ·.index) } := by
      intro above
      rw [List.filter_eq_self.mpr fun e member => decide_eq_true (above e member)]
      exact ⟨rfl, rfl, fun _ _ => rfl, fun _ _ => rfl⟩
    refine ⟨kept, fun whole => ⟨whole.dropped_moves newer rfl rfl, fun none => kept ?_⟩⟩
    rw [none]
    exact List.forall_mem_nil _
  · cases failed

end Failures

/-- Two segments with one entry each. The first file cannot be removed. -/
def twoSegments : Log :=
  ⟨⟨"wal", [(1, ⟨frame (encoding ⟨1, 1, .noop⟩), (frame (encoding ⟨1, 1, .noop⟩)).length⟩),
      (2, ⟨frame (encoding ⟨1, 2, .noop⟩), (frame (encoding ⟨1, 2, .noop⟩)).length⟩)], [],
      [.failed 0 "Permission denied"]⟩, 1,
    [⟨1, [], (frame (encoding ⟨1, 1, .noop⟩)).length, 1⟩,
      ⟨2, [], (frame (encoding ⟨1, 2, .noop⟩)).length, 1⟩], 1, 2⟩

/-- A node with this write-ahead log, a snapshot and the entries above it. -/
def holding (snapshot : SnapshotMeta) (entries : List LogEntry) : RaftCore Log :=
  assemble ⟨0, 0⟩ ((Config.new 2).withPeers [⟨1, ""⟩, ⟨3, ""⟩]) HardFile.absent snapshot twoSegments
    entries

/-- With all entries in the snapshot there is nothing to drop. -/
theorem failed_compact_unmoved_empty : ∃ core', compact ⟨3, 1⟩ (holding ⟨2, 1⟩ []) =
    (.error (.err (.io "Permission denied")), core') ∧ Unmoved 3 (holding ⟨2, 1⟩ []) core' := by
  have stops : (compact ⟨3, 1⟩ (holding ⟨2, 1⟩ [])).1 = .error (.err (.io "Permission denied")) := by
    decide +kernel
  refine ⟨_, Prod.ext stops rfl, ?_⟩
  exact (failed_compact_unmoved (by decide) (Prod.ext stops rfl)).1 (List.forall_mem_nil _)

/-- The second entry is no longer found at its index, but at the one before it. -/
theorem failed_compact_moves_entry : ∃ core',
    (holding ⟨0, 0⟩ [⟨1, 1, .noop⟩, ⟨1, 2, .noop⟩]).Contiguous ∧
      compact ⟨1, 1⟩ (holding ⟨0, 0⟩ [⟨1, 1, .noop⟩, ⟨1, 2, .noop⟩]) =
        (.error (.err (.io "Permission denied")), core') ∧
      (holding ⟨0, 0⟩ [⟨1, 1, .noop⟩, ⟨1, 2, .noop⟩]).entryAt 2 = some ⟨1, 2, .noop⟩ ∧
      core'.entryAt 2 = none ∧ core'.termAt 2 = none ∧ core'.entryAt 1 = some ⟨1, 2, .noop⟩ := by
  let ended := compact ⟨1, 1⟩ (holding ⟨0, 0⟩ [⟨1, 1, .noop⟩, ⟨1, 2, .noop⟩])
  have stops : ended.1 = .error (.err (.io "Permission denied")) := by decide +kernel
  have moved : ended.2.entryAt 2 = none ∧ ended.2.termAt 2 = none ∧
      ended.2.entryAt 1 = some ⟨1, 2, .noop⟩ := by decide +kernel
  exact ⟨ended.2, by decide, Prod.ext stops rfl, by decide, moved⟩

end RaftCore
end WalKv
