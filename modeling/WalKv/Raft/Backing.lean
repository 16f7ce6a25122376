import WalKv.Raft.Lookup
import WalKv.Raft.Running
import WalKv.Wal.Flat
import WalKv.Consensus.Splice

/-! How a write-ahead log backs the log of a core. A log that keeps its records as a
list would has a record of every entry from some index at or below the first one in
memory. The methods that touch the log keep this, and `restore` rebuilds the entries
from the records. -/
namespace WalKv

/-- The entry has an encoding. -/
def Encodable [Bincode] (e : LogEntry) : Prop := ∃ b, Bincode.serialize e = .ok b

section Records
variable [Bincode] {log : FlatLog} {l : List LogEntry} {e : LogEntry} {bytes : Bytes} {k : Nat}

/-- The records are the encodings of the log's entries from `firstIndex` on. -/
structure FlatLog.Backs (log : FlatLog) (l : List LogEntry) : Prop where
  positive : 1 ≤ log.firstIndex
  within : log.firstIndex ≤ l.length + 1
  records : List.Forall₂ (fun bytes e => Bincode.serialize e = .ok bytes) log.records
    (l.drop (log.firstIndex - 1))

instance : Decidable (log.Backs l) :=
  decidable_of_iff (_ ∧ _ ∧ _) ⟨fun ⟨positive, within, records⟩ => ⟨positive, within, records⟩,
    fun backs => ⟨backs.positive, backs.within, backs.records⟩⟩

omit [Bincode] in
theorem FlatLog.truncateSuffix_ok (above : log.firstIndex ≤ k + 1) :
    ∃ log', FlatLog.truncateSuffix k log = (.ok (), log') := by
  unfold FlatLog.truncateSuffix
  split_ifs
  · exact ⟨_, rfl⟩
  · omega
  · exact ⟨_, rfl⟩

namespace FlatLog.Backs

theorem length (backs : log.Backs l) : log.firstIndex + log.records.length = l.length + 1 := by
  have same := backs.records.length_eq
  have first := backs.positive
  have within := backs.within
  rw [List.length_drop] at same
  omega

theorem append (backs : log.Backs l) (encoded : Bincode.serialize e = .ok bytes) :
    (⟨log.firstIndex, log.records ++ [bytes]⟩ : FlatLog).Backs (l ++ [e]) where
  positive := backs.positive
  within := by
    have within := backs.within
    simp only [List.length_append]
    omega
  records := by
    have within := backs.within
    rw [List.drop_append_of_le_length (by simp only; omega)]
    exact List.rel_append backs.records (.cons encoded .nil)

theorem truncateSuffix (backs : log.Backs l) (above : log.firstIndex ≤ k + 1)
    (below : k ≤ l.length) : ∃ log', FlatLog.truncateSuffix k log = (.ok (), log') ∧
      log'.firstIndex = log.firstIndex ∧ log'.Backs (l.take k) := by
  have length := backs.length
  have first := backs.positive
  unfold FlatLog.truncateSuffix FlatLog.lastIndex
  split_ifs with whole
  · refine ⟨log, rfl, rfl, ?_⟩
    rw [List.take_of_length_le (by omega)]
    exact backs
  · omega
  · refine ⟨_, rfl, rfl, ⟨first, ?_, ?_⟩⟩
    · simp only [List.length_take]
      omega
    · have cut := List.forall₂_take (k + 1 - log.firstIndex) backs.records
      rw [List.take_drop, show log.firstIndex - 1 + (k + 1 - log.firstIndex) = k by omega] at cut
      exact cut

theorem drop (backs : log.Backs l) (within : k ≤ log.records.length) :
    (⟨log.firstIndex + k, log.records.drop k⟩ : FlatLog).Backs l := by
  have length := backs.length
  have positive := backs.positive
  refine ⟨?_, ?_, ?_⟩
  · simp only
    omega
  · simp only
    omega
  · have cut := List.forall₂_drop k backs.records
    rw [List.drop_drop] at cut
    convert cut using 2
    simp only
    omega

/-- Decoding skips the records that the snapshot covers. -/
theorem load_from [LawfulBincode] {first : Nat} {snapshot : SnapshotMeta} :
    ∀ (records : List Bytes) (tail : List LogEntry) (i : Nat),
      List.Forall₂ (fun bytes e => Bincode.serialize e = .ok bytes) records tail →
      RaftCore.loadEntries snapshot
          ((records.zipIdx i).map fun (record, j) => (first + j, record)) =
        .ok (tail.drop (snapshot.lastIncludedIndex + 1 - first - i)) := by
  intro records
  induction records with
  | nil =>
    intro tail i pairs
    cases pairs
    simp [RaftCore.loadEntries]
  | cons bytes rest ih =>
    intro tail i pairs
    cases pairs with
    | @cons _ e _ tail encoded pairs =>
      have later := ih tail (i + 1) pairs
      simp only [List.zipIdx_cons, List.map_cons, RaftCore.loadEntries]
      split_ifs with covered
      · rw [later, show snapshot.lastIncludedIndex + 1 - first - i =
          (snapshot.lastIncludedIndex + 1 - first - (i + 1)) + 1 by omega, List.drop_succ_cons]
      · rw [later, LawfulBincode.roundtrip encoded,
          show snapshot.lastIncludedIndex + 1 - first - i = 0 by omega,
          show snapshot.lastIncludedIndex + 1 - first - (i + 1) = 0 by omega]
        rfl

theorem load [LawfulBincode] (backs : log.Backs l) {snapshot : SnapshotMeta}
    (reaches : log.firstIndex ≤ snapshot.lastIncludedIndex + 1) :
    RaftCore.loadEntries snapshot log.readAll = .ok (l.drop snapshot.lastIncludedIndex) := by
  have positive := backs.positive
  have loaded := @load_from _ _ log.firstIndex snapshot _ _ 0 backs.records
  rw [List.drop_drop, show log.firstIndex - 1 +
    (snapshot.lastIncludedIndex + 1 - log.firstIndex - 0) = snapshot.lastIncludedIndex by omega]
    at loaded
  exact loaded

end FlatLog.Backs
end Records

/-- Logs that stand for a list of records. The flag says that the log may hold records
that are not synced yet; it then cannot be truncated at its end or read back. -/
class Journal (W : Type) [WalOps W] where
  Shows : W → FlatLog → Bool → Prop
  Fits : Bytes → Prop
  append : ∀ {log flatLog unsynced payload}, Shows log flatLog unsynced → Fits payload →
    ∃ index log', WalOps.append payload log = (.ok index, log') ∧
      Shows log' { flatLog with records := flatLog.records ++ [payload] } true
  sync : ∀ {log flatLog unsynced}, Shows log flatLog unsynced →
    ∃ log', WalOps.sync log = (.ok (), log') ∧ Shows log' flatLog false
  truncateSuffix : ∀ {log flatLog flatLog' keepLast}, Shows log flatLog false →
    FlatLog.truncateSuffix keepLast flatLog = (.ok (), flatLog') →
      ∃ log', WalOps.truncateSuffix keepLast log = (.ok (), log') ∧ Shows log' flatLog' false
  truncatePrefix : ∀ {log flatLog unsynced} upTo, Shows log flatLog unsynced →
    ∃ log' n, WalOps.truncatePrefix upTo log = (.ok (), log') ∧ n ≤ flatLog.records.length ∧
      (n = 0 ∨ flatLog.firstIndex + n ≤ upTo) ∧
      Shows log' ⟨flatLog.firstIndex + n, flatLog.records.drop n⟩ unsynced
  readAll : ∀ {log flatLog}, Shows log flatLog false → WalOps.readAll log = .ok flatLog.readAll

instance : Journal FlatLog where
  Shows log flatLog _ := log = flatLog
  Fits _ := True
  append := by
    rintro log _ _ payload rfl _
    exact ⟨_, _, rfl, rfl⟩
  sync := by
    rintro log _ _ rfl
    exact ⟨log, rfl, rfl⟩
  truncateSuffix := by
    rintro log _ flatLog' keepLast rfl cut
    exact ⟨flatLog', cut, rfl⟩
  truncatePrefix := by
    rintro log _ _ upTo rfl
    refine ⟨_, _, rfl, Nat.min_le_right _ _, ?_, rfl⟩
    omega
  readAll := by
    rintro log _ rfl
    rfl

/-- One round of the splice loop: the entry is skipped, or the log is cut off in front of
it, or the log ends there. -/
theorem RaftCore.Holds.splice_step {W : Type} [WalOps W] [Bincode] {core : RaftCore W}
    {l : List LogEntry} {e : LogEntry} {p : Nat} (holds : core.Holds l) (index : e.index = p + 1)
    (reach : p ≤ l.length) (es : List LogEntry) :
    p < l.length ∧ (p < core.snapshot.lastIncludedIndex ∨
        ∃ own, l[p]? = some own ∧ Consensus.Stamped.term own = Consensus.Stamped.term e) ∧
      splice (e :: es) core = splice es core ∨
    core.snapshot.lastIncludedIndex ≤ p ∧ (∃ own, l[p]? = some own ∧
        Consensus.Stamped.term own ≠ Consensus.Stamped.term e ∧
      splice (e :: es) core =
        (truncateFrom (p + 1) >>= fun _ => appendReplicated e >>= fun _ => splice es) core) ∨
    core.snapshot.lastIncludedIndex ≤ p ∧ l.length = p ∧
      splice (e :: es) core = (appendReplicated e >>= fun _ => splice es) core := by
  rw [splice_cons, index, baseIndex]
  by_cases covered : p < core.snapshot.lastIncludedIndex
  · exact .inl ⟨covered.trans_le holds.compacted, .inl covered, if_pos (Nat.succ_lt_succ covered)⟩
  · rw [if_neg (by omega)]
    rcases Nat.lt_or_ge p l.length with inside | beyond
    · have own : l[p]? = some l[p] := List.getElem?_eq_getElem inside
      have found : core.termAt (p + 1) = some l[p].term := by
        rw [holds.termAt (by omega) inside, Consensus.termAt_succ, own]
        rfl
      rw [found]
      by_cases same : l[p].term = e.term
      · exact .inl ⟨inside, .inr ⟨_, own, same⟩, if_pos same⟩
      · exact .inr (.inl ⟨by omega, _, own, same, if_neg same⟩)
    · rw [holds.termAt_above (by omega)]
      exact .inr (.inr ⟨by omega, by omega, rfl⟩)

theorem RaftCore.Holds.advance {W : Type} {core : RaftCore W} {l : List LogEntry}
    (holds : core.Holds l) : core.advanceCommitIndex = core ∨
      ∃ k, core.commitIndex < k ∧ k ≤ l.length ∧
        core.advanceCommitIndex = { core with commitIndex := k } := by
  rcases advanceCommitIndex_cases core with same | ⟨k, _, above, own, moved⟩
  · exact .inl same
  · refine .inr ⟨k, above, ?_, moved⟩
    by_contra beyond
    rw [holds.termAt_above (Nat.lt_of_not_le beyond)] at own
    cases own

/-- The entry has an encoding that the log takes. -/
def Recordable (W : Type) [WalOps W] [Journal W] [Bincode] (e : LogEntry) : Prop :=
  ∃ bytes, Bincode.serialize e = .ok bytes ∧ Journal.Fits W bytes

namespace RaftCore
variable {W : Type} [WalOps W] [Journal W] [Bincode] {core : RaftCore W} {l : List LogEntry}
  {e : LogEntry} {p : Nat} {clock : Clock} {unsynced : Bool}

omit [Journal W] [Bincode] in
theorem Holds.truncateFrom (holds : core.Holds l) (above : core.snapshot.lastIncludedIndex ≤ p)
    (below : p ≤ l.length) : (RaftCore.truncateFrom (p + 1) core).2.Holds (l.take p) where
  compacted := by
    rw [List.length_take]
    exact Nat.le_min.mpr ⟨above, above.trans below⟩
  entries := by
    have kept := holds.indexed.filter_lt core.snapshot.lastIncludedIndex p
    rw [← holds.entries] at kept
    exact kept
  indexed := holds.indexed.shorter (List.take_prefix p l)
  based := holds.based.trans (Consensus.termAt_take l above).symm

omit [Journal W] [Bincode] in
theorem compact_idle {snapshot : SnapshotMeta}
    (old : ¬ core.snapshot.lastIncludedIndex < snapshot.lastIncludedIndex) :
    RaftCore.compact snapshot core = (.ok (), core) := by
  simp only [RaftCore.compact, Fallible.bind_run, Fallible.get_run, Fallible.when_run, if_neg old]

omit [Journal W] [Bincode] in
theorem compact_newer {snapshotMeta : SnapshotMeta}
    (newer : core.snapshot.lastIncludedIndex < snapshotMeta.lastIncludedIndex) :
    RaftCore.compact snapshotMeta core =
      match WalOps.truncatePrefix (snapshotMeta.lastIncludedIndex + 1) core.log with
      | (.ok (), log) => (.ok (), { core with
          log, snapshot := snapshotMeta
          entries := core.entries.filter (snapshotMeta.lastIncludedIndex < ·.index) })
      | (.error stop, log) => (.error stop, { core with
          log, entries := core.entries.filter (snapshotMeta.lastIncludedIndex < ·.index) }) := by
  simp only [RaftCore.compact, Fallible.bind_run, Fallible.get_run, Fallible.when_run,
    if_pos newer, Fallible.modify_run, onLog, Fallible.part_run]
  rcases WalOps.truncatePrefix (snapshotMeta.lastIncludedIndex + 1) core.log with ⟨_ | ⟨⟩, log⟩ <;>
    rfl

omit [Journal W] [Bincode] in
theorem compact_ok {snapshotMeta : SnapshotMeta}
    (cuts : core.snapshot.lastIncludedIndex < snapshotMeta.lastIncludedIndex →
      (WalOps.truncatePrefix (snapshotMeta.lastIncludedIndex + 1) core.log).1 = .ok ()) :
    (RaftCore.compact snapshotMeta core).1 = .ok () := by
  by_cases newer : core.snapshot.lastIncludedIndex < snapshotMeta.lastIncludedIndex
  · simp only [RaftCore.compact, Fallible.bind_run, Fallible.get_run, Fallible.when_run,
      if_pos newer, Fallible.modify_run, onLog, Fallible.part_run, cuts newer]
  · rw [compact_idle newer]

omit [Journal W] in
theorem appendCommand_leading (leading : core.role = .leader) (command : Command) :
    appendCommand command core = (appendReplicated ⟨core.hard.currentTerm, core.lastLogIndex + 1,
      command⟩ >>= fun _ => pure ⟨core.hard.currentTerm, core.lastLogIndex + 1, command⟩) core := by
  simp only [appendCommand, appendReplicated, Fallible.bind_assoc,
    Fallible.bind_ok (Fallible.get_run core), leading, ne_eq, not_true_eq_false, if_false]

/-- The core stands for the log `l`, and its write-ahead log has the entries in memory. -/
structure Grounded (core : RaftCore W) (l : List LogEntry) (unsynced : Bool) : Prop where
  holds : core.Holds l
  recorded : ∃ flatLog : FlatLog, Journal.Shows core.log flatLog unsynced ∧ flatLog.Backs l ∧
    flatLog.firstIndex ≤ core.snapshot.lastIncludedIndex + 1

namespace Grounded

theorem congr {core' : RaftCore W} (grounded : core.Grounded l unsynced)
    (snapshot : core'.snapshot = core.snapshot) (entries : core'.entries = core.entries)
    (log : core'.log = core.log) : core'.Grounded l unsynced :=
  ⟨grounded.holds.congr snapshot entries, by rw [log, snapshot]; exact grounded.recorded⟩

theorem appendReplicated (grounded : core.Grounded l unsynced) (next : e.index = l.length + 1)
    (recordable : Recordable W e) : ∃ core', RaftCore.appendReplicated e core = (.ok (), core') ∧
      LogOnly core core' ∧ core'.commitIndex = core.commitIndex ∧ core'.Grounded (l ++ [e]) true := by
  obtain ⟨bytes, encoded, fits⟩ := recordable
  obtain ⟨flatLog, shown, backs, reaches⟩ := grounded.recorded
  obtain ⟨index, log, appended, shown'⟩ := Journal.append shown fits
  refine ⟨{ core with log, entries := core.entries ++ [e] }, ?_, rfl, rfl,
    grounded.holds.concat next rfl rfl, _, shown', backs.append encoded, reaches⟩
  simp only [RaftCore.appendReplicated, encoded, Fallible.bind_run, Except.mapError,
    Fallible.lift_run, onLog, Fallible.part_run, appended, Fallible.modify_run]

/-- A command is refused without effect, or it is appended. -/
theorem appendCommand (grounded : core.Grounded l unsynced) {command : Command}
    (entry : e = ⟨core.hard.currentTerm, l.length + 1, command⟩)
    (fits : ∀ bytes, Bincode.serialize e = .ok bytes → Journal.Fits W bytes) :
    (∃ stop, RaftCore.appendCommand command core = (.error stop, core)) ∨
    ∃ core', RaftCore.appendCommand command core = (.ok e, core') ∧ LogOnly core core' ∧
      core'.commitIndex = core.commitIndex ∧ core'.Grounded (l ++ [e]) true := by
  have last := grounded.holds.lastLogIndex
  by_cases leading : core.role = .leader
  · have same : RaftCore.appendCommand command core =
        (RaftCore.appendReplicated e >>= fun _ => pure e) core := by
      rw [appendCommand_leading leading, last, ← entry]
    cases encoded : Bincode.serialize e with
    | error error =>
      refine .inl ⟨.err error, ?_⟩
      rw [same, RaftCore.appendReplicated, encoded]
      rfl
    | ok bytes =>
      obtain ⟨core', appended, only, commit, grounded'⟩ :=
        grounded.appendReplicated (by rw [entry]) ⟨bytes, encoded, fits bytes encoded⟩
      refine .inr ⟨core', ?_, only, commit, grounded'⟩
      rw [same, Fallible.bind_ok appended]
      rfl
  · refine .inl ⟨.err (.raft "only the leader may append commands"), ?_⟩
    simp only [RaftCore.appendCommand, Fallible.bind_run, Fallible.get_run, ne_eq, leading,
      not_false_eq_true, if_true, Fallible.stop_run]

theorem truncateFrom (grounded : core.Grounded l false)
    (above : core.snapshot.lastIncludedIndex ≤ p) (below : p ≤ l.length) :
    ∃ core', RaftCore.truncateFrom (p + 1) core = (.ok (), core') ∧
      LogOnly core core' ∧ core'.commitIndex = core.commitIndex ∧ core'.Grounded (l.take p) false := by
  obtain ⟨flatLog, shown, backs, reaches⟩ := grounded.recorded
  obtain ⟨cut, ran, first, backs'⟩ := backs.truncateSuffix (k := p) (by omega) below
  obtain ⟨log, truncated, shown'⟩ := Journal.truncateSuffix shown ran
  have ran' : RaftCore.truncateFrom (p + 1) core = (.ok (), { core with
      log, entries := core.entries.filter fun e => e.index < p + 1 }) := by
    simp only [RaftCore.truncateFrom, Fallible.bind_run, Fallible.modify_run, onLog,
      Fallible.part_run, Nat.add_sub_cancel, truncated]
  have held := grounded.holds.truncateFrom above below
  rw [ran'] at held
  exact ⟨_, ran', rfl, rfl, held, cut, shown', backs', first ▸ reaches⟩

/-- The splice loop computes the splice of the log it stands for. It cuts the log off
only while all records are synced: after the first entry that it appends it is at the
end of the log. -/
theorem splice {es : List LogEntry} (grounded : core.Grounded l unsynced) (reach : p ≤ l.length)
    (ended : unsynced = true → p = l.length)
    (contiguous : ∀ j e, es[j]? = some e → e.index = p + j + 1)
    (recordable : ∀ e ∈ es, Recordable W e) :
    ∃ core' unsynced', RaftCore.splice es core = (.ok (), core') ∧ LogOnly core core' ∧
      core'.commitIndex = core.commitIndex ∧
      core'.Grounded (Consensus.splice core.snapshot.lastIncludedIndex l p es) unsynced' := by
  induction es generalizing core l p unsynced with
  | nil => exact ⟨core, unsynced, rfl, rfl, rfl, grounded⟩
  | cons e es ih =>
    obtain ⟨index, contiguous⟩ := consecutive_tail contiguous
    have recordable' : ∀ x ∈ es, Recordable W x := fun x member =>
      recordable x (List.mem_cons_of_mem _ member)
    have extend {core' : RaftCore W} {l' : List LogEntry} {unsynced' : Bool}
        (grounded : core'.Grounded l' unsynced') (length : l'.length = p) (only : LogOnly core core')
        (commit : core'.commitIndex = core.commitIndex) :
        ∃ core'' unsynced'', (RaftCore.appendReplicated e >>= fun _ => RaftCore.splice es) core' =
          (.ok (), core'') ∧ LogOnly core core'' ∧ core''.commitIndex = core.commitIndex ∧
          core''.Grounded (Consensus.splice core.snapshot.lastIncludedIndex (l' ++ [e]) (p + 1) es)
            unsynced'' := by
      have snapshot : core'.snapshot = core.snapshot := by rw [only]
      obtain ⟨core₁, appended, only₁, commit₁, grounded₁⟩ :=
        grounded.appendReplicated (by omega) (recordable e (by simp))
      have snapshot₁ : core₁.snapshot = core.snapshot := by rw [only₁, snapshot]
      obtain ⟨core₂, unsynced₂, spliced, only₂, commit₂, grounded₂⟩ :=
        ih grounded₁ (by simp; omega) (fun _ => by simp; omega) contiguous recordable'
      refine ⟨core₂, unsynced₂, ?_, only.trans (only₁.trans only₂), by omega, snapshot₁ ▸ grounded₂⟩
      rw [Fallible.bind_ok appended, spliced]
    rcases grounded.holds.splice_step index reach es with
      ⟨inside, skip, same⟩ | ⟨above, own, found, differ, same⟩ | ⟨above, end', same⟩
    · rw [same, Consensus.splice_skip skip]
      exact ih grounded inside (fun open' => by have := ended open'; omega) contiguous recordable'
    · have inside := (List.getElem?_eq_some_iff.mp found).1
      have synced : unsynced = false := by
        cases unsynced with
        | false => rfl
        | true => exact absurd (ended rfl) (Nat.ne_of_lt inside)
      subst synced
      obtain ⟨core', cut, only, commit, grounded'⟩ := grounded.truncateFrom above inside.le
      obtain ⟨core'', unsynced'', ran, rest⟩ := extend grounded' (by simp; omega) only commit
      rw [same, Consensus.splice_cut above found differ, Fallible.bind_ok cut]
      exact ⟨core'', unsynced'', ran, rest⟩
    · rw [same, Consensus.splice_append above end'.le]
      exact extend grounded end' rfl rfl

theorem sync (grounded : core.Grounded l unsynced) : ∃ core', RaftCore.sync core = (.ok (), core') ∧
    LogOnly core core' ∧ core'.commitIndex = core.commitIndex ∧ core'.Grounded l false := by
  obtain ⟨flatLog, shown, backs, reaches⟩ := grounded.recorded
  obtain ⟨log, synced, shown'⟩ := Journal.sync shown
  refine ⟨{ core with log }, ?_, rfl, rfl, grounded.holds.congr rfl rfl, flatLog, shown', backs,
    reaches⟩
  rw [RaftCore.sync, onLog, Fallible.part_run, synced]

theorem store {args : AppendEntriesArgs} (grounded : core.Grounded l false) (reach : p ≤ l.length)
    (contiguous : ∀ j e, args.entries[j]? = some e → e.index = p + j + 1)
    (recordable : ∀ e ∈ args.entries, Recordable W e) {l' : List LogEntry}
    (spliced : l' = Consensus.splice core.snapshot.lastIncludedIndex l p args.entries) :
    ∃ core', RaftCore.store args core = (.ok ⟨core.hard.currentTerm, true, 0⟩, core') ∧
      LogOnly core core' ∧ core'.Grounded l' false ∧
      core'.commitIndex = if core.commitIndex < args.leaderCommit
        then min args.leaderCommit l'.length else core.commitIndex := by
  obtain ⟨core₁, _, ran, only, commit, grounded₁⟩ :=
    grounded.splice reach nofun contiguous recordable
  rw [← spliced] at grounded₁
  obtain ⟨core₂, synced, only₂, commit₂, grounded₂⟩ := grounded₁.sync
  have last := grounded₂.holds.lastLogIndex
  have hard : (adoptCommit args.leaderCommit core₂).hard = core.hard := by
    rw [adoptCommit_eq, only₂, only]
  refine ⟨adoptCommit args.leaderCommit core₂, ?_, ?_, ?_, ?_⟩
  · rw [RaftCore.store, Fallible.bind_ok ran, Fallible.bind_ok synced, Fallible.modify_bind, ← hard]
    rfl
  · rw [adoptCommit_eq]
    exact (only.trans only₂).trans rfl
  · rw [adoptCommit_eq]
    exact grounded₂.congr rfl rfl rfl
  · simp only [adoptCommit_eq, commit₂, commit, last]

theorem compact (grounded : core.Grounded l unsynced) {k : Nat}
    (above : core.snapshot.lastIncludedIndex < k) (below : k ≤ l.length) :
    ∃ core', RaftCore.compact ⟨k, Consensus.termAt l k⟩ core = (.ok (), core') ∧
      core' = { core with
        log := core'.log, entries := core'.entries, snapshot := core'.snapshot } ∧
      core'.snapshot = ⟨k, Consensus.termAt l k⟩ ∧ core'.Grounded l unsynced := by
  obtain ⟨flatLog, shown, backs, reaches⟩ := grounded.recorded
  obtain ⟨log, n, cut, within, place, shown'⟩ := Journal.truncatePrefix (k + 1) shown
  refine ⟨{ core with
    log, snapshot := ⟨k, Consensus.termAt l k⟩
    entries := core.entries.filter fun e => k < e.index }, ?_, rfl, rfl,
    grounded.holds.dropped above.le below rfl rfl rfl, _, shown', backs.drop within, ?_⟩
  · rw [compact_newer above, cut]
  · simp only
    omega

theorem restore [LawfulBincode] {cfg : Config} {file : HardFile} {snapshot : SnapshotMeta}
    {log : W} {flatLog : FlatLog} (shown : Journal.Shows log flatLog false) (backs : flatLog.Backs l)
    (reaches : flatLog.firstIndex ≤ snapshot.lastIncludedIndex + 1)
    (timed : asMillis cfg.electionTimeout.start < asMillis cfg.electionTimeout.stop) :
    RaftCore.restore clock cfg file snapshot log = .ok ((assemble clock cfg file snapshot log
      (l.drop snapshot.lastIncludedIndex)).armed clock) :=
  restore_eq (Journal.readAll shown) (backs.load reaches) timed

end Grounded
end RaftCore
end WalKv
