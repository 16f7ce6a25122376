import WalKv.Driver.Snapshotting

/-! What `take_committed` hands out over the life of one core. Between two calls the log may be
cut and regrown behind the commit index, and compacted up to the applied one; every call goes on
where the last one ended. -/
namespace WalKv
open RaftCore Transition

/-- The core, with what it has committed and what it has handed out since it was restored. -/
structure Handout (W : Type) where
  core : RaftCore W
  /-- Each entry as the log had it when the commit index reached it. -/
  settled : List LogEntry
  taken : List LogEntry

namespace Handout
variable {W : Type} {s s' : Handout W} {first : Nat}

inductive Move where
  | call (call : CoreCall)
  | append (command : Command)
  | advance
  | compact (snapshotMeta : SnapshotMeta)
  | take

def restored (core : RaftCore W) : Handout W := ⟨core, [], []⟩

/-- What the log has where the commit index has moved. -/
def newlyCommitted (core core' : RaftCore W) : List LogEntry :=
  (List.range' (core.commitIndex + 1) (core'.commitIndex - core.commitIndex)).filterMap core'.entryAt

def settle (s : Handout W) (core : RaftCore W) : Handout W :=
  { s with core, settled := s.settled ++ newlyCommitted s.core core }

theorem settle_core (core : RaftCore W) : (s.settle core).core = core := rfl

theorem settle_settled (core : RaftCore W) :
    (s.settle core).settled = s.settled ++ newlyCommitted s.core core := rfl

theorem settle_same {core : RaftCore W} (same : core.commitIndex = s.core.commitIndex) :
    s.settle core = { s with core } := by
  rw [settle, newlyCommitted, same, Nat.sub_self, List.range'_zero, List.filterMap_nil,
    List.append_nil]

section Step
variable [WalOps W] [Bincode]

/-- Calls may fail; the core is what they leave behind. -/
def step (s : Handout W) : Move → Option (Handout W)
  | .call call => some (s.settle (call.run s.core))
  | .append command => some (s.settle (appendCommand command s.core).2)
  | .advance => some (s.settle s.core.advanceCommitIndex)
  | .compact snapshotMeta => some (s.settle (RaftCore.compact snapshotMeta s.core).2)
  | .take =>
    let (batch, core) := s.core.takeCommitted
    some { s.settle core with taken := s.taken ++ batch }

/-- Requests do not dispute what is committed, and compaction stays behind what is applied. -/
def Legal (s : Handout W) : Move → Prop
  | .call (.appendEntries _ args) => s.core.Undisputed args
  | .compact snapshotMeta => snapshotMeta.lastIncludedIndex ≤ s.core.lastApplied
  | _ => True

instance (s : Handout W) (move : Move) : Decidable (s.Legal move) :=
  match move with
  | .call (.appendEntries _ args) => inferInstanceAs (Decidable (s.core.Undisputed args))
  | .compact snapshotMeta =>
    inferInstanceAs (Decidable (snapshotMeta.lastIncludedIndex ≤ s.core.lastApplied))
  | .call (.requestVote ..) | .call (.propose _) | .call (.campaign _) | .call .win
  | .call (.follow ..) | .call (.reply ..) | .call (.renewLease _) | .append _ | .advance | .take =>
    .isTrue trivial

/-- The write-ahead log can be cut where a compaction moves the snapshot. -/
def Cuts (s : Handout W) : Move → Prop
  | .compact snapshotMeta => s.core.snapshot.lastIncludedIndex < snapshotMeta.lastIncludedIndex →
    (WalOps.truncatePrefix (snapshotMeta.lastIncludedIndex + 1) s.core.log).1 = .ok ()
  | _ => True

instance (s : Handout W) (move : Move) : Decidable (s.Cuts move) :=
  match move with
  | .compact snapshotMeta => inferInstanceAs (Decidable (
    s.core.snapshot.lastIncludedIndex < snapshotMeta.lastIncludedIndex →
      (WalOps.truncatePrefix (snapshotMeta.lastIncludedIndex + 1) s.core.log).1 = .ok ()))
  | .call _ | .append _ | .advance | .take => .isTrue trivial

def Allowed (s : Handout W) (move : Move) : Prop := s.Legal move ∧ s.Cuts move

instance (s : Handout W) (move : Move) : Decidable (s.Allowed move) :=
  inferInstanceAs (Decidable (_ ∧ _))

end Step
end Handout

namespace RaftCore
variable {W : Type} {core core' : RaftCore W}

theorem Contiguous.lookups (whole : core.Contiguous) {a n : Nat}
    (above : core.snapshot.lastIncludedIndex ≤ a) (within : a + n ≤ core.lastLogIndex) :
    (List.range' (a + 1) n).filterMap core.entryAt =
      (core.entries.drop (a - core.snapshot.lastIncludedIndex)).take n := by
  rw [whole.lastLogIndex] at within
  induction n generalizing a with
  | zero => rfl
  | succ n ih =>
    have inside : a - core.snapshot.lastIncludedIndex < core.entries.length := by omega
    have here : core.entryAt (a + 1) = some core.entries[a - core.snapshot.lastIncludedIndex] := by
      rw [entryAt, baseIndex, if_neg (by omega), Nat.add_sub_add_right]
      exact List.getElem?_eq_getElem inside
    rw [List.range'_succ, List.filterMap_cons_some here, ih (by omega) (by omega),
      List.drop_eq_getElem_cons inside, List.take_succ_cons, Nat.succ_sub above]

theorem Contiguous.indices (whole : core.Contiguous) {a n : Nat}
    (above : core.snapshot.lastIncludedIndex ≤ a) (within : a + n ≤ core.lastLogIndex) :
    ((core.entries.drop (a - core.snapshot.lastIncludedIndex)).take n).map LogEntry.index =
      List.range' (a + 1) n := by
  rw [whole.lastLogIndex] at within
  refine List.ext_getElem (by simp; omega) fun i inside _ => ?_
  simp only [List.length_map, List.length_take, List.length_drop] at inside
  have index := whole (a - core.snapshot.lastIncludedIndex + i) _
    (List.getElem?_eq_getElem (by omega))
  simp only [List.getElem_map, List.getElem_take, List.getElem_drop, List.getElem_range', index]
  omega

theorem Continues.committed (continues : Continues core core') :
    core'.entries.take (core.commitIndex - core.snapshot.lastIncludedIndex) =
      core.entries.take (core.commitIndex - core.snapshot.lastIncludedIndex) := by
  refine List.ext_getElem? fun i => ?_
  rw [List.getElem?_take, List.getElem?_take]
  split_ifs with inside
  · have same := continues.kept (core.snapshot.lastIncludedIndex + 1 + i) (by omega)
    rwa [entryAt, entryAt, baseIndex, baseIndex, continues.snapshot, if_neg (by omega),
      if_neg (by omega), Nat.add_sub_cancel_left] at same
  · rfl

theorem Regular.takeCommitted (regular : core.Regular)
    (covered : core.snapshot.lastIncludedIndex ≤ core.lastApplied) :
    core.takeCommitted =
      ((core.entries.take (core.commitIndex - core.snapshot.lastIncludedIndex)).drop
        (core.lastApplied - core.snapshot.lastIncludedIndex),
      { core with lastApplied := core.commitIndex }) := by
  obtain ⟨l, holds⟩ := regular.contiguous.holds regular.blank
  have within := regular.within
  rw [holds.lastLogIndex] at within
  rw [holds.takeCommitted_run covered regular.applied within, holds.entries, ← List.drop_take,
    List.drop_drop, Nat.add_sub_cancel' covered]

end RaftCore

namespace Handout
variable {W : Type} {s s' : Handout W} {first : Nat}

/-- The record since a restore with snapshot index `first`: what is committed is there in order,
the log in memory has the end of it, and what is applied is handed out. -/
structure Recorded (first : Nat) (s : Handout W) : Prop where
  regular : s.core.Regular
  based : first ≤ s.core.snapshot.lastIncludedIndex
  covered : s.core.snapshot.lastIncludedIndex ≤ s.core.lastApplied
  numbered : s.settled.map LogEntry.index = List.range' (first + 1) (s.core.commitIndex - first)
  recent : s.core.entries.take (s.core.commitIndex - s.core.snapshot.lastIncludedIndex) =
    s.settled.drop (s.core.snapshot.lastIncludedIndex - first)
  handed : s.taken = s.settled.take (s.core.lastApplied - first)

namespace Recorded

theorem length (recorded : s.Recorded first) : s.settled.length = s.core.commitIndex - first := by
  rw [← List.length_map LogEntry.index, recorded.numbered, List.length_range']

theorem settle (recorded : s.Recorded first) {core : RaftCore W} (continues : Continues s.core core) :
    (s.settle core).Recorded first := by
  have applied := recorded.regular.applied
  have based := recorded.based
  have covered := recorded.covered
  have forward := continues.forward
  have length := recorded.length
  have snapshot := continues.snapshot
  have above : core.snapshot.lastIncludedIndex ≤ s.core.commitIndex := by
    rw [snapshot]
    omega
  have within : s.core.commitIndex + (core.commitIndex - s.core.commitIndex) ≤ core.lastLogIndex := by
    rw [Nat.add_sub_cancel' forward]
    exact continues.within
  have added : newlyCommitted s.core core = _ := continues.contiguous.lookups above within
  have indices := continues.contiguous.indices above within
  rw [← added] at indices
  constructor
  · exact continues.regular recorded.regular
  · exact snapshot ▸ based
  · rw [settle_core, snapshot, continues.applied]
    exact covered
  · rw [settle_settled, settle_core, List.map_append, recorded.numbered, indices,
      show s.core.commitIndex + 1 = first + 1 + (s.core.commitIndex - first) by omega,
      List.range'_append_1]
    congr 1
    omega
  · have committed := continues.committed
    rw [recorded.recent] at committed
    rw [settle_settled, settle_core, snapshot, List.drop_append_of_le_length (by omega), ← committed,
      added, snapshot, ← List.take_add]
    congr 1
    omega
  · rw [settle_settled, settle_core, continues.applied, List.take_append_of_le_length (by omega)]
    exact recorded.handed

theorem taken (recorded : s.Recorded first) :
    s.core.takeCommitted = (s.settled.drop (s.core.lastApplied - first),
      { s.core with lastApplied := s.core.commitIndex }) := by
  have based := recorded.based
  have covered := recorded.covered
  rw [recorded.regular.takeCommitted covered, recorded.recent, List.drop_drop,
    show s.core.snapshot.lastIncludedIndex - first + (s.core.lastApplied -
      s.core.snapshot.lastIncludedIndex) = s.core.lastApplied - first by omega]

section Step
variable [WalOps W] [Bincode]

theorem take (recorded : s.Recorded first) (stepped : s.step .take = some s') :
    s'.Recorded first ∧ s'.core.lastApplied = s'.core.commitIndex := by
  have regular := recorded.regular
  have same : s.settle { s.core with lastApplied := s.core.commitIndex } = _ := settle_same rfl
  simp only [step, recorded.taken, same] at stepped
  cases stepped
  refine ⟨⟨⟨regular.contiguous, regular.blank, le_rfl, regular.within⟩, recorded.based,
    recorded.covered.trans regular.applied, recorded.numbered, recorded.recent, ?_⟩, rfl⟩
  rw [recorded.handed, List.take_append_drop, List.take_of_length_le recorded.length.le]

omit [Bincode] in
theorem compact (recorded : s.Recorded first) {snapshotMeta : SnapshotMeta} {core : RaftCore W}
    (behind : snapshotMeta.lastIncludedIndex ≤ s.core.lastApplied)
    (cut : RaftCore.compact snapshotMeta s.core = (.ok (), core)) : (s.settle core).Recorded first := by
  have based := recorded.based
  rcases Nat.lt_or_ge s.core.snapshot.lastIncludedIndex snapshotMeta.lastIncludedIndex with newer | old
  · obtain ⟨regular, snapshot, applied, commit, entries⟩ := recorded.regular.compacted newer cut
    rw [settle_same commit]
    constructor
    · exact regular
    · rw [snapshot]
      omega
    · rw [snapshot, applied]
      exact behind
    · rw [commit]
      exact recorded.numbered
    · rw [commit, snapshot, entries, ← Nat.sub_sub_sub_cancel_right newer.le, ← List.drop_take,
        recorded.recent, List.drop_drop]
      congr 1
      omega
    · rw [applied]
      exact recorded.handed
  · rw [compact_idle (Nat.not_lt.mpr old)] at cut
    cases cut
    exact recorded.settle (.sameLog recorded.regular (.refl _))

theorem step (recorded : s.Recorded first) {move : Move} (allowed : s.Allowed move)
    (stepped : s.step move = some s') : s'.Recorded first := by
  obtain ⟨legal, cuts⟩ := allowed
  have regular := recorded.regular
  cases move with
  | call call =>
    cases stepped
    have based := recorded.covered.trans regular.applied
    refine recorded.settle (CoreCall.run_continues regular based ?_)
    cases call with
    | appendEntries clock args => exact Undisputed.keepsCommitted legal regular clock
    | _ => trivial
  | append command =>
    cases stepped
    exact recorded.settle (appendCommand_steady command s.core regular)
  | advance =>
    cases stepped
    exact recorded.settle (Steady.advance s.core regular)
  | compact snapshotMeta =>
    cases stepped
    exact recorded.compact legal (Prod.ext (compact_ok cuts) rfl)
  | take => exact (recorded.take stepped).1

end Step
end Recorded

section Step
variable [WalOps W] [Bincode]

theorem restored_recorded {clock : Clock} {cfg : Config} {hardPath : HardFile}
    {snapshot : SnapshotMeta} {log : W} {core : RaftCore W}
    (started : restore clock cfg hardPath snapshot log = .ok core) (contiguous : core.Contiguous)
    (blank : snapshot.lastIncludedIndex = 0 → snapshot.lastIncludedTerm = 0) :
    (restored core).Recorded snapshot.lastIncludedIndex := by
  obtain ⟨records, entries, _, _, _, rfl⟩ := restore_ok started
  have within : snapshot.lastIncludedIndex ≤
      ((assemble clock cfg hardPath snapshot log entries).armed clock).lastLogIndex := by
    rw [contiguous.lastLogIndex]
    exact Nat.le_add_right _ _
  constructor
  · exact ⟨contiguous, blank, le_rfl, within⟩
  · exact le_rfl
  · exact le_rfl
  · simp [restored, RaftCore.armed, assemble]
  · simp [restored, RaftCore.armed, assemble]
  · simp [restored]

/-- The entries that a node hands out from its restart on are those behind its snapshot, each once
and in order, as they were when they became committed; every call hands out all of them that are
committed. -/
theorem handed_out_once {clock : Clock} {cfg : Config} {hardPath : HardFile}
    {snapshot : SnapshotMeta} {log : W} {core : RaftCore W}
    (started : restore clock cfg hardPath snapshot log = .ok core) (contiguous : core.Contiguous)
    (blank : snapshot.lastIncludedIndex = 0 → snapshot.lastIncludedTerm = 0)
    (run : Reaches step Allowed (restored core) s) :
    snapshot.lastIncludedIndex ≤ s.core.lastApplied ∧
      s.settled.map LogEntry.index = List.range' (snapshot.lastIncludedIndex + 1)
        (s.core.commitIndex - snapshot.lastIncludedIndex) ∧
      s.taken = s.settled.take (s.core.lastApplied - snapshot.lastIncludedIndex) ∧
      s.taken.map LogEntry.index = List.range' (snapshot.lastIncludedIndex + 1)
        (s.core.lastApplied - snapshot.lastIncludedIndex) ∧
      ∀ s', s.step .take = some s' → s'.core.lastApplied = s'.core.commitIndex := by
  have recorded := run.invariant (restored_recorded started contiguous blank)
    fun before allowed stepped => before.step allowed stepped
  have applied := recorded.regular.applied
  refine ⟨recorded.based.trans recorded.covered, recorded.numbered, recorded.handed, ?_,
    fun s' stepped => (recorded.take stepped).2⟩
  rw [recorded.handed, List.map_take, recorded.numbered, List.take_range'_of_length_ge (by omega)]

end Step

/-- The node leads with three entries, hands out the first when that is committed, and compacts it.
The others are committed in between. -/
def compacting : List Move :=
  [.call (.campaign ⟨0, 0⟩), .call .win, .call (.propose .noop), .call (.propose .noop),
    .call (.reply 2 1 ⟨1, true, 0⟩), .take, .call (.reply 2 3 ⟨1, true, 0⟩), .compact ⟨1, 1⟩]

/-- Another leader replaces what is not committed, before the node hands out the rest. -/
theorem handed_out_once_trio : ∃ (core : RaftCore FlatLog) (s : Handout FlatLog),
    restore ⟨0, 0⟩ Applier.trio HardFile.absent default FlatLog.empty = .ok core ∧
      Reaches step Allowed (restored core) s ∧ s.core.snapshot = ⟨1, 1⟩ ∧ s.core.lastApplied = 4 ∧
      s.taken = [⟨1, 1, .noop⟩, ⟨1, 2, .noop⟩, ⟨1, 3, .noop⟩, ⟨2, 4, .noop⟩] ∧
      s.taken.map LogEntry.index = List.range' 1 4 := by
  have ran : (((restore ⟨0, 0⟩ Applier.trio HardFile.absent default FlatLog.empty).toOption.map
      restored).bind fun s => execute step Allowed s (compacting ++ [.append .noop,
        .call (.appendEntries ⟨0, 0⟩ ⟨2, 2, 3, 1, [⟨2, 4, .noop⟩], 4⟩), .take])).any
      (fun s => decide (s.core.snapshot = ⟨1, 1⟩ ∧ s.core.lastApplied = 4 ∧
        s.taken = [⟨1, 1, .noop⟩, ⟨1, 2, .noop⟩, ⟨1, 3, .noop⟩, ⟨2, 4, .noop⟩])) = true := by
    decide +kernel
  have empty : (restore ⟨0, 0⟩ Applier.trio HardFile.absent default FlatLog.empty).toOption.any
      (fun core => decide core.Contiguous) = true := by
    decide +kernel
  obtain ⟨start, s, opened, reached, shown⟩ := execute_shows_from ran
  obtain ⟨core, found, rfl⟩ := Option.map_eq_some_iff.mp opened
  obtain ⟨snapshot, applied, taken⟩ := of_decide_eq_true shown
  have started := Except.of_toOption_some found
  rw [found, Option.any_some] at empty
  obtain ⟨_, _, _, indices, _⟩ :=
    handed_out_once started (of_decide_eq_true empty) (fun _ => rfl) reached
  rw [applied] at indices
  exact ⟨core, s, started, reached, snapshot, applied, taken, indices⟩

/-- The first segment file cannot be removed. The third entry is handed out after the first, and
the commit index is not reached. -/
theorem failed_compaction_skips : ∃ (core : RaftCore Log) (s s' : Handout Log),
    Applier.stuck >>= restore ⟨0, 0⟩ Applier.trio HardFile.absent default = .ok core ∧ core.Contiguous ∧
      Reaches step Legal (restored core) s ∧ s.step .take = some s' ∧
      s'.settled = [⟨1, 1, .noop⟩, ⟨1, 2, .noop⟩, ⟨1, 3, .noop⟩] ∧
      s'.taken = [⟨1, 1, .noop⟩, ⟨1, 3, .noop⟩] ∧
      s'.core.lastApplied = 2 ∧ s'.core.commitIndex = 3 := by
  have ran : (((Applier.stuck >>= restore ⟨0, 0⟩ Applier.trio HardFile.absent default).toOption.map
      restored).bind fun s => execute step Legal s compacting).any (fun s =>
        (s.step .take).any fun s' => decide (
          s'.settled = [⟨1, 1, .noop⟩, ⟨1, 2, .noop⟩, ⟨1, 3, .noop⟩] ∧
          s'.taken = [⟨1, 1, .noop⟩, ⟨1, 3, .noop⟩] ∧
          s'.core.lastApplied = 2 ∧ s'.core.commitIndex = 3)) = true := by
    decide +kernel
  have empty : (Applier.stuck >>= restore ⟨0, 0⟩ Applier.trio HardFile.absent default).toOption.any
      (fun core => decide core.Contiguous) = true := by
    decide +kernel
  obtain ⟨start, s, opened, reached, shown⟩ := execute_shows_from ran
  obtain ⟨core, found, rfl⟩ := Option.map_eq_some_iff.mp opened
  obtain ⟨s', stepped, shown⟩ := (Option.any_eq_true _ _).mp shown
  rw [found, Option.any_some] at empty
  exact ⟨core, s, s', Except.of_toOption_some found, of_decide_eq_true empty, reached, stepped,
    of_decide_eq_true shown⟩

end Handout
end WalKv
