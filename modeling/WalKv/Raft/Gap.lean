import WalKv.Raft.Backing
import WalKv.Raft.Bincode
import WalKv.Wal.Refinement
import WalKv.Wal.Swapped

/-! A node over a log with a gap. The log gives every record its own index, but the core counts
its entries from the snapshot on, so that behind a lost record it answers each index with the
entry of the next one. -/
namespace WalKv

section Loading
variable [Bincode] {snapshot : SnapshotMeta}

theorem loadEntries_append {first second : List (Nat × Bytes)} {l l' : List LogEntry}
    (head : RaftCore.loadEntries snapshot first = .ok l)
    (tail : RaftCore.loadEntries snapshot second = .ok l') :
    RaftCore.loadEntries snapshot (first ++ second) = .ok (l ++ l') := by
  induction first generalizing l with
  | nil =>
    cases head
    exact tail
  | cons record first ih =>
    obtain ⟨index, bytes⟩ := record
    simp only [List.cons_append, RaftCore.loadEntries] at head ⊢
    split_ifs at head ⊢ with covered
    · exact ih head
    · obtain ⟨entry, decoded, head⟩ := Except.of_bind_ok head
      obtain ⟨entries, loaded, same⟩ := Except.of_bind_ok head
      cases same
      rw [decoded, ih loaded]
      rfl

theorem loadEntries_number [LawfulBincode] {records : List Bytes} {tail : List LogEntry} (i : Nat)
    (pairs : List.Forall₂ (fun bytes e => Bincode.serialize e = .ok bytes) records tail) :
    RaftCore.loadEntries snapshot (number i records) =
      .ok (tail.drop (snapshot.lastIncludedIndex + 1 - i)) := by
  have loaded : RaftCore.loadEntries snapshot (FlatLog.readAll ⟨i, records⟩) = _ :=
    FlatLog.Backs.load_from records tail 0 pairs
  rw [FlatLog.readAll_number] at loaded
  exact loaded

end Loading

section Gap
variable [Checksum] [Bincode] [LawfulBincode] {log : Log} {lead front back : List Chunk} {active c : Chunk}
  {s : Scanned} {l : List LogEntry} {snapshot : SnapshotMeta}

omit [Checksum] in
theorem loadEntries_gap {first second : List Bytes} {payload : Bytes} {i : Nat}
    (backs : FlatLog.Backs ⟨i, first ++ payload :: second⟩ l)
    (reaches : i ≤ snapshot.lastIncludedIndex + 1)
    (above : snapshot.lastIncludedIndex < i + first.length) :
    RaftCore.loadEntries snapshot ((number i (first ++ payload :: second)).filter
        (·.1 ≠ i + first.length)) =
      .ok ((l.eraseIdx (i + first.length - 1)).drop snapshot.lastIncludedIndex) := by
  have positive : 1 ≤ i := backs.positive
  have length : i + (first ++ payload :: second).length = l.length + 1 := backs.length
  rw [List.length_append, List.length_cons] at length
  have before := List.forall₂_take first.length backs.records
  rw [List.take_left] at before
  have behind := List.forall₂_drop (first.length + 1) backs.records
  rw [List.drop_append, List.drop_eq_nil_of_le (Nat.le_succ _), Nat.add_sub_cancel_left,
    List.nil_append, List.drop_one, List.tail_cons, List.drop_drop,
    show i - 1 + (first.length + 1) = i + first.length by omega] at behind
  have loaded : RaftCore.loadEntries snapshot _ = _ :=
    loadEntries_append (loadEntries_number i before) (loadEntries_number (i + first.length + 1) behind)
  rw [number_without, loaded, List.eraseIdx_eq_take_drop_succ,
    show i + first.length - 1 + 1 = i + first.length by omega,
    show snapshot.lastIncludedIndex + 1 - (i + first.length + 1) = 0 by omega, List.drop_zero,
    List.drop_append_of_le_length (by rw [List.length_take]; omega), List.take_drop, List.drop_drop,
    show i - 1 + first.length = i + first.length - 1 by omega,
    show i - 1 + (snapshot.lastIncludedIndex + 1 - i) = snapshot.lastIncludedIndex by omega]

/-- A node over a log of which some segment file holds all records but its last one, and no
damage before intact records, starts without an error. Below the gap it answers every index with
its entry; from the gap on it answers every index with the entry of the next one. -/
theorem restore_misplaces_behind_gap (laid : log.Laid lead active) (healthy : log.dir.outcomes = [])
    (synced : ∀ x ∈ lead ++ [active], x.Synced) (split : lead ++ [active] = front ++ c :: back)
    (base : s.base = c.base) {payload : Bytes} (records : c.records = s.records ++ [payload])
    (sound : ¬ s.Damaged) (backs : FlatLog.Backs ⟨log.firstIndex, flat (lead ++ [active])⟩ l)
    (reaches : log.firstIndex ≤ snapshot.lastIncludedIndex + 1)
    (above : snapshot.lastIncludedIndex < c.base + s.records.length) (clock : Clock) {cfg : Config}
    (file : HardFile) (timed : asMillis cfg.electionTimeout.start < asMillis cfg.electionTimeout.stop) :
    ∃ log' core, (Log.open cfg.segmentMaxBytes (log.swapped s)).1 = .ok log' ∧
      RaftCore.restore clock cfg file snapshot log' = .ok core ∧
      (∀ i, snapshot.lastIncludedIndex < i → i < c.base + s.records.length →
        core.entryAt i = l[i - 1]?) ∧
      ∀ i, c.base + s.records.length ≤ i → core.entryAt i = l[i]? := by
  obtain ⟨log', opened, read⟩ :=
    Log.swapped_opens laid healthy synced split base records sound cfg.segmentMaxBytes
  have contiguous : Contiguous log.firstIndex (front ++ c :: back) := split ▸ laid.contiguous
  obtain ⟨_, here, _⟩ := contiguous_append.mp contiguous
  have whole : flat (lead ++ [active]) = (flat front ++ s.records) ++ payload :: flat back := by
    rw [split]
    simp [flat_append, records]
  have position : c.base + s.records.length =
      log.firstIndex + (flat front ++ s.records).length := by
    rw [here, List.length_append]
    omega
  rw [whole] at backs
  rw [whole, position] at read
  rw [position] at above ⊢
  have loaded := loadEntries_gap backs reaches above
  generalize gap : log.firstIndex + (flat front ++ s.records).length = k at *
  have found {i : Nat} (covered : snapshot.lastIncludedIndex < i) :
      ((RaftCore.assemble clock cfg file snapshot log'
        ((l.eraseIdx (k - 1)).drop snapshot.lastIncludedIndex)).armed clock).entryAt i =
      (l.eraseIdx (k - 1))[i - 1]? := by
    have base : ((RaftCore.assemble clock cfg file snapshot log'
        ((l.eraseIdx (k - 1)).drop snapshot.lastIncludedIndex)).armed clock).baseIndex =
        snapshot.lastIncludedIndex + 1 := rfl
    rw [RaftCore.entryAt, base, if_neg (by omega)]
    have shifted : snapshot.lastIncludedIndex + (i - (snapshot.lastIncludedIndex + 1)) = i - 1 := by
      omega
    exact (List.getElem?_drop).trans (congrArg _ shifted)
  refine ⟨log', _, opened, RaftCore.restore_eq read loaded timed, ?_, ?_⟩
  · intro i covered below
    rw [found covered, List.getElem?_eraseIdx_of_lt (by omega)]
  · intro i behind
    rw [found (by omega), List.getElem?_eraseIdx_of_ge (by omega), Nat.sub_add_cancel (by omega)]

end Gap

namespace Gap

/-- The encoding of an empty command. -/
def noop (term index : UInt8) : Bytes :=
  [term, 0, 0, 0, 0, 0, 0, 0, index, 0, 0, 0, 0, 0, 0, 0, 2, 0, 0, 0]

def full : Chunk := .settled 1 [noop 1 1, noop 1 2] (by simp [Fits, noop, maxRecordLen])

def rest : Chunk := .settled 3 [noop 2 3] (by simp [Fits, noop, maxRecordLen])

def log : Log where
  dir := ⟨"wal", [full.entry, rest.entry], [], []⟩
  maxSegmentBytes := 1
  segments := [full.segment, rest.segment]
  firstIndex := 1
  lastIndex := 3

/-- The first file, with its last record torn. -/
def torn : Scanned where
  base := 1
  file := ⟨frame (noop 1 1) ++ (frame (noop 1 2)).take 20, 48⟩
  records := [noop 1 1]
  rest := (frame (noop 1 2)).take 20
  run := by
    have fits : Fits [noop 1 1] := by simp [Fits, noop, maxRecordLen]
    have unread : (parse ((frame (noop 1 2)).take 20)).1 = .truncated := by decide +kernel
    refine ⟨rfl, fits, fun others fits' inside => run_longest fits ?_ fits' inside⟩
    rw [unread]
    exact fun _ => RecordRead.noConfusion

theorem torn_sound : ¬ torn.Damaged := by
  intro damaged
  have corrupt := (interior_iff.mp damaged).1
  have unread : (parse torn.rest).1 = .truncated := by decide +kernel
  rw [unread] at corrupt
  cases corrupt

end Gap

/-- Node 1 is restored over a log that has lost the second of three entries. It takes the third
for the second. -/
theorem restore_misplaces_behind_gap_third : ∃ log' core,
    (Log.open (Config.new 1).segmentMaxBytes (Gap.log.swapped Gap.torn)).1 = .ok log' ∧
    RaftCore.restore ⟨0, 0⟩ (Config.new 1) HardFile.absent ⟨0, 0⟩ log' = .ok core ∧
    core.entryAt 1 = some ⟨1, 1, .noop⟩ ∧ core.entryAt 2 = some ⟨2, 3, .noop⟩ := by
  have laid : Gap.log.Laid [Gap.full] Gap.rest :=
    ⟨rfl, rfl, ⟨rfl, rfl, trivial⟩, by decide, rfl, by simp [Gap.full, Chunk.settled], rfl⟩
  have synced : ∀ x ∈ [Gap.full] ++ [Gap.rest], x.Synced := by
    intro x inside
    rcases List.mem_cons.mp inside with rfl | inside
    · exact Chunk.settled_synced _ _ _
    · rw [List.mem_singleton.mp inside]
      exact Chunk.settled_synced _ _ _
  have split : [Gap.full] ++ [Gap.rest] = [] ++ Gap.full :: [Gap.rest] := rfl
  have records : Gap.full.records = Gap.torn.records ++ [Gap.noop 1 2] := rfl
  have backs : FlatLog.Backs ⟨Gap.log.firstIndex, flat ([Gap.full] ++ [Gap.rest])⟩
      [⟨1, 1, .noop⟩, ⟨1, 2, .noop⟩, ⟨2, 3, .noop⟩] := by decide +kernel
  have above : (⟨0, 0⟩ : SnapshotMeta).lastIncludedIndex < Gap.full.base + Gap.torn.records.length := by
    decide
  have timed : asMillis (Config.new 1).electionTimeout.start <
      asMillis (Config.new 1).electionTimeout.stop := by decide
  obtain ⟨log', core, opened, restored, below, behind⟩ := restore_misplaces_behind_gap laid rfl synced
    split rfl records Gap.torn_sound backs le_rfl above ⟨0, 0⟩ HardFile.absent timed
  exact ⟨log', core, opened, restored, below 1 (by decide) (by decide), behind 2 (by decide)⟩

end WalKv
