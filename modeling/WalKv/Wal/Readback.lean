import WalKv.Wal.Faults
import WalKv.Wal.FailedAppend
import WalKv.Wal.Refinement

/-! Which records can be read back. The writer takes a payload of any length, and the reader
refuses a length above `MAX_RECORD_LEN`. -/
namespace WalKv
open Framing (stream)
open LittleEndian

section Records
variable [Checksum] {log log₁ log₂ : Log} {lead : List Chunk} {active : Chunk}
  {payload : Bytes} {payloads : List Bytes} {indices : List Nat}

theorem Segment.items_fits {fuel : Nat} {bytes : Bytes}
    (member : .ok payload ∈ Segment.items fuel ⟨bytes, []⟩) : payload.length ≤ maxRecordLen := by
  induction fuel generalizing bytes with
  | zero => cases member
  | succ fuel ih =>
    rw [Segment.items, readRecord_whole] at member
    rcases found : parse bytes with ⟨payload' | _ | _ | _, rest⟩ <;> rw [found] at member
    · rcases List.mem_cons.mp member with same | later
      · obtain rfl := Except.ok.inj same
        exact (parse_exact found).2
      · exact ih later
    · cases member
    · cases List.mem_singleton.mp member
    · cases List.mem_singleton.mp member

namespace Log

omit [Checksum] in
theorem mem_of_numbered {i : Nat} {items : List (Except Error Bytes)} {records : List (Nat × Bytes)}
    (read : numbered i items = .ok records) {record : Nat × Bytes} (member : record ∈ records) :
    .ok record.2 ∈ items := by
  induction items generalizing i records with
  | nil =>
    cases read
    cases member
  | cons item items ih =>
    obtain ⟨first, here, read⟩ := Except.of_bind_ok read
    obtain ⟨rest, later, read⟩ := Except.of_bind_ok read
    cases read
    rcases List.mem_cons.mp member with rfl | inside
    · exact List.mem_cons.mpr (.inl here.symm)
    · exact List.mem_cons_of_mem _ (ih later inside)

theorem readSegments_fits {segments : List Segment} {dir dir' : Dir} {records : List (Nat × Bytes)}
    (read : readSegments segments dir = (.ok records, dir')) {record : Nat × Bytes}
    (member : record ∈ records) : record.2.length ≤ maxRecordLen := by
  induction segments generalizing dir records with
  | nil =>
    cases read
    cases member
  | cons seg segments ih =>
    obtain ⟨items, dir₁, iterated, read⟩ := Fallible.of_bind_ok read
    obtain ⟨first, dir₂, counted, read⟩ := Fallible.of_bind_ok read
    obtain ⟨later, dir₃, rest, read⟩ := Fallible.of_bind_ok read
    cases read
    rcases List.mem_append.mp member with inside | inside
    · obtain ⟨reader, dir₄, opened, listed⟩ := Fallible.of_bind_ok iterated
      obtain ⟨file, dir₅, _, given⟩ := Fallible.of_bind_ok opened
      cases given
      cases listed
      have counted := Except.of_mapError_ok (congrArg Prod.fst counted)
      exact Segment.items_fits (mem_of_numbered counted inside)
    · exact ih rest inside

theorem readAll_fits {records : List (Nat × Bytes)} (read : (readAll log).1 = .ok records)
    {record : Nat × Bytes} (member : record ∈ records) : record.2.length ≤ maxRecordLen := by
  have ran : readSegments log.segments log.dir =
      (.ok records, (readSegments log.segments log.dir).2) := Prod.ext read rfl
  exact readSegments_fits ran member

/-- Append records one after the other. -/
def appendEach : List Bytes → Method (List Nat)
  | [] => pure []
  | payload :: payloads => do
    let index ← append payload
    let later ← appendEach payloads
    pure (index :: later)

omit [Checksum] in
theorem onLast_lastIndex {α : Type} (m : Segment.Method α) (log : Log) :
    (onLast m log).2.lastIndex = log.lastIndex := by
  unfold onLast
  split <;> rfl

theorem append_index {index : Nat} (appended : append payload log = (.ok index, log₁)) :
    index = log.lastIndex + 1 ∧ log₁.lastIndex = log.lastIndex + 1 := by
  rw [append, Fallible.bind_ok (Fallible.get_run log)] at appended
  rcases last : log.segments.getLast? with _ | active <;> rw [last] at appended
  · cases appended
  obtain ⟨⟨⟩, log', rotated, appended⟩ := Fallible.of_bind_ok appended
  obtain ⟨⟨⟩, log'', wrote, appended⟩ := Fallible.of_bind_ok appended
  cases appended
  have kept : log'.lastIndex = log.lastIndex := by
    rw [Fallible.when] at rotated
    split_ifs at rotated
    · obtain ⟨seg, log', created, pushed⟩ := Fallible.of_bind_ok rotated
      cases pushed
      exact (congrArg (·.2.lastIndex) created).symm
    · cases rotated
      rfl
  have kept' := onLast_lastIndex (Segment.append payload) log'
  rw [wrote] at kept'
  exact ⟨rfl, congrArg (· + 1) (kept'.trans kept)⟩

theorem Laid.appendEach (laid : log.Laid lead active)
    (appended : Log.appendEach payloads log = (.ok indices, log₁)) (fits : Fits payloads) :
    ∃ lead' active', log₁.Laid lead' active' ∧ log₁.firstIndex = log.firstIndex ∧
      flat (lead' ++ [active']) = flat (lead ++ [active]) ++ payloads := by
  induction payloads generalizing log lead active indices with
  | nil =>
    cases appended
    exact ⟨lead, active, laid, rfl, (List.append_nil _).symm⟩
  | cons payload payloads ih =>
    obtain ⟨index, log', first, appended⟩ := Fallible.of_bind_ok appended
    obtain ⟨later, log'', rest, appended⟩ := Fallible.of_bind_ok appended
    cases appended
    rcases laid.append_cases payload with
      ⟨log', ran, start, _, _, grows⟩ | ⟨stop, log', _, _, _, ran, _⟩
    · rw [ran] at first
      cases first
      obtain ⟨lead', active', laid', here, _⟩ := grows (fits payload List.mem_cons_self)
      obtain ⟨lead'', active'', laid'', start', all⟩ :=
        ih laid' rest fun x member => fits x (List.mem_cons_of_mem _ member)
      refine ⟨lead'', active'', laid'', start'.trans start, ?_⟩
      rw [all, here, List.append_assoc, List.singleton_append]
    · rw [ran] at first
      cases first

theorem appendEach_indices (appended : Log.appendEach payloads log = (.ok indices, log₁)) :
    indices = List.range' (log.lastIndex + 1) payloads.length := by
  induction payloads generalizing log indices with
  | nil =>
    cases appended
    rfl
  | cons payload payloads ih =>
    obtain ⟨index, log', first, appended⟩ := Fallible.of_bind_ok appended
    obtain ⟨later, log'', rest, appended⟩ := Fallible.of_bind_ok appended
    cases appended
    obtain ⟨rfl, last⟩ := append_index first
    rw [ih rest, last]
    rfl

/-- The log with a directory whose operations go well from here on. -/
def healed (log : Log) : Log := { log with dir := { log.dir with outcomes := [] } }

/-- The log, and the log that its directory is reopened as, return these records. -/
def ReadsBack (log : Log) (maxSegmentBytes : Nat) (records : List (Nat × Bytes)) : Prop :=
  (readAll log.healed).1 = .ok records ∧
    ∃ log', (Log.open maxSegmentBytes log.healed.dir).1 = .ok log' ∧
      (readAll log').1 = .ok records

/-- Records that were appended and synced, with all that was there before, can be read back
exactly if none of them is above the limit. -/
theorem readback_iff (laid : log.Laid lead active)
    (appended : Log.appendEach payloads log = (.ok indices, log₁))
    (synced : Log.sync log₁ = (.ok (), log₂)) (maxSegmentBytes : Nat) :
    indices = List.range' (log.lastIndex + 1) payloads.length ∧
      (log₂.ReadsBack maxSegmentBytes
          (number log.firstIndex (flat (lead ++ [active]) ++ payloads)) ↔ Fits payloads) := by
  refine ⟨appendEach_indices appended, ?_⟩
  constructor
  · rintro ⟨read, _⟩ payload member
    have inside : payload ∈ flat (lead ++ [active]) ++ payloads := List.mem_append_right _ member
    obtain ⟨j, found⟩ := List.getElem?_of_mem inside
    have listed : (log.firstIndex + j, payload) ∈
        number log.firstIndex (flat (lead ++ [active]) ++ payloads) := by
      refine mem_number.mpr ⟨Nat.le_add_right _ _, ?_⟩
      rwa [Nat.add_sub_cancel_left]
    exact readAll_fits read listed
  · intro fits
    obtain ⟨lead₁, active₁, laid₁, first₁, all₁⟩ := laid.appendEach appended fits
    obtain ⟨lead₂, active₂, ended, log', ran, laid₂, first₂, _, all₂, durable, _⟩ := laid₁.sync_cases
    rw [ran] at synced
    cases synced
    have shown : log₂.healed.Shows
        ⟨log.firstIndex, flat (lead ++ [active]) ++ payloads⟩ false :=
      ⟨lead₂, active₂, laid₂.outcomes [], rfl, first₂.trans first₁, all₂.trans all₁,
        fun _ => durable rfl⟩
    have records := FlatLog.readAll_number ⟨log.firstIndex, flat (lead ++ [active]) ++ payloads⟩
    obtain ⟨log', opened, shown'⟩ := shown.reopen maxSegmentBytes
    refine ⟨?_, log', opened, ?_⟩
    · rw [shown.readAll, ← records]
    · rw [shown'.readAll, ← records]

theorem parse_oversized (large : maxRecordLen < payload.length) (cast : payload.length < 256 ^ 4)
    (rest : Bytes) : parse (frame payload ++ rest) = (.corrupt, payload ++ rest) := by
  have length := recordHeader_length payload
  have len : decode ((recordHeader payload).drop 4) = payload.length := by
    rw [recordHeader, List.drop_left' (encode_length _ _), decode_encode cast]
  rw [frame_eq, List.append_assoc]
  simp only [parse, List.take_left' length, List.drop_left' length, length, len]
  rw [if_neg (by decide), if_neg (Nat.lt_irrefl _), if_pos large]

/-- An empty log with its only segment. -/
def lone : Log := ⟨⟨"wal", [(1, ⟨[], 0⟩)], [], []⟩, 9, [⟨1, [], 0, 0⟩], 1, 0⟩

/-- The log with one record, on disk. -/
def loneRecord (payload : Bytes) : Log :=
  ⟨Segment.holdingOne (frame payload) (frame payload).length, 9,
    [⟨1, [], (frame payload).length, 1⟩], 1, 1⟩

theorem lone_append (payload : Bytes) : ∃ log₁, append payload lone = (.ok 1, log₁) ∧
    sync log₁ = (.ok (), loneRecord payload) := by
  have found : lone.dir.find (⟨1, [], 0, 0⟩ : Segment).baseIndex = some ⟨[], 0⟩ := rfl
  obtain ⟨file, part, buffer, outcomes, _, total, _, _, ⟨rfl, none, ran⟩ | ⟨some, _⟩⟩ :=
    Segment.append_cases found payload
  · obtain rfl := none rfl
    have total : file.content ++ buffer = frame payload := total
    have found' : Dir.find (⟨1, buffer, 0 + (frame payload).length, 0 + 1⟩ : Segment).baseIndex
        (lone.dir.setFile 1 file) = some file := Dir.find_setFile found
    have synced := Segment.sync_healthy rfl found'
    simp only [total] at synced
    refine ⟨⟨lone.dir.setFile 1 file, 9, [⟨1, buffer, 0 + (frame payload).length, 0 + 1⟩], 1, 1⟩,
      ?_, ?_⟩
    · have ran : Segment.append payload (lone.dir, ⟨1, [], 0, 0⟩) = _ := ran
      have last : lone.segments.getLast? = some ⟨1, [], 0, 0⟩ := rfl
      have wrote : onLast (Segment.append payload) lone = (.ok (),
          { lone with
            dir := lone.dir.setFile 1 file
            segments := [⟨1, buffer, 0 + (frame payload).length, 0 + 1⟩] }) := by
        simp only [onLast, last, ran]
        rfl
      rw [append, Fallible.bind_ok (Fallible.get_run lone), last]
      simp only [Fallible.when, if_neg (show ¬ (lone.maxSegmentBytes ≤ 0 ∧ 0 < 0) by simp)]
      rw [Fallible.bind_ok (Fallible.pure_run () lone), Fallible.bind_ok wrote]
      rfl
    · simp only [sync, syncSegments, synced]
      simp only [loneRecord, Segment.holdingOne, Nat.zero_add]
      rfl
  · exact absurd rfl some

theorem loneRecord_lost (large : maxRecordLen < payload.length) (cast : payload.length < 256 ^ 4)
    (unclean : ¬ Clean payload) :
    (readAll (loneRecord payload)).1 =
        .error (.err (.wal "unexpected partial/corrupt record while iterating")) ∧
      (Log.open 9 (loneRecord payload).dir).1 = .ok lone := by
  have corrupt := parse_oversized large cast []
  rw [List.append_nil, List.append_nil] at corrupt
  have read := readRecord_whole (frame payload)
  rw [corrupt] at read
  have unreadable : ∀ found, (parse (frame payload)).1 ≠ .entry found := by
    intro found same
    rw [corrupt] at same
    cases same
  have detected : ¬ ((parse (frame payload)).1 = .corrupt ∧ (parse (frame payload)).2 ≠ [] ∧
      Clean (parse (frame payload)).2) := by
    rw [corrupt]
    exact fun detectable => unclean detectable.2.2
  unfold loneRecord
  generalize frame payload = bytes at read unreadable detected
  have found : (Segment.holdingOne bytes bytes.length).find 1 = some ⟨bytes, bytes.length⟩ := rfl
  constructor
  · have iterated : Segment.iter ⟨1, [], bytes.length, 1⟩ (Segment.holdingOne bytes bytes.length) =
        (.ok [.error (.wal "unexpected partial/corrupt record while iterating")],
          { Segment.holdingOne bytes bytes.length with outcomes := [] }) := by
      rw [Segment.iter, Fallible.bind_ok (Dir.read_run (Dir.ready_nil rfl) found),
        Fallible.pure_run, Segment.items, read]
    simp only [readAll, Fallible.bind_run, Fallible.get_run, onDir, Fallible.part_run, readSegments,
      iterated]
    rfl
  · rcases Segment.recoverLoop_rest (segmentPath "wal" 1) fits_nil unreadable
      (List.nil_append bytes).symm with ⟨_, _, detectable⟩ | ⟨scanned, _⟩
    · exact absurd detectable detected
    · have recovered := Segment.recover_scanned rfl found (Nat.zero_le _) scanned
      have sorted : (List.map Prod.fst (Segment.holdingOne bytes bytes.length).files).insertionSort
          (· ≤ ·) = [1] := rfl
      simp only [Log.open, Fallible.bind_run, Fallible.get_run, discoverSegments, Segment.holdingOne,
        Fallible.lift_run, Except.mapError] at recovered sorted ⊢
      rw [if_neg (by simp), sorted]
      simp only [recoverAll, Fallible.bind_run, recovered]
      rfl

end Log
end Records

theorem Log.lone_laid : Log.lone.Laid [] (.settled 1 [] fits_nil) :=
  ⟨rfl, rfl, ⟨rfl, trivial⟩, le_rfl, rfl, by simp, rfl⟩

/-- Two records in two segments. -/
theorem Log.readback_iff_pair : ∃ log₁ log₂,
    Log.appendEach [[1], [2, 3]] Log.lone = (.ok [1, 2], log₁) ∧ Log.sync log₁ = (.ok (), log₂) ∧
      log₂.ReadsBack 9 (number 1 [[1], [2, 3]]) := by
  have appended : (Log.appendEach [[1], [2, 3]] Log.lone).1 = .ok [1, 2] := by decide +kernel
  have synced : (Log.sync (Log.appendEach [[1], [2, 3]] Log.lone).2).1 = .ok () := by decide +kernel
  have fits : Fits [[1], [2, 3]] := by
    unfold Fits
    decide
  exact ⟨_, _, Prod.ext appended rfl, Prod.ext synced rfl,
    (Log.readback_iff Log.lone_laid (Prod.ext appended rfl) (Prod.ext synced rfl) 9).2.mpr fits⟩

/-- One byte more than the limit. -/
def oversized : Bytes := List.replicate (maxRecordLen + 1) 0

theorem zeros_unclean {n : Nat} (enough : headerLen < n) : ¬ Clean (List.replicate n 0) := by
  have corrupt : (parse (List.replicate n 0)).1 = .corrupt := by
    have header : (List.replicate n (0 : UInt8)).take headerLen = List.replicate headerLen 0 := by
      rw [List.take_replicate, Nat.min_eq_left enough.le]
    have crc : decode ((List.replicate headerLen (0 : UInt8)).take 4) = 0 := by decide
    have len : decode ((List.replicate headerLen (0 : UInt8)).drop 4) = 0 := by decide
    simp only [parse, header, List.length_replicate, crc, len, List.take_zero]
    rw [if_neg (by decide), if_neg (Nat.lt_irrefl _), if_neg (by decide), if_neg (by decide),
      if_pos (by decide +kernel)]
  intro clean
  rcases clean.reads with empty | ⟨payload, rest, found⟩
  · rw [empty] at corrupt
    cases corrupt
  · rw [found] at corrupt
    cases corrupt

/-- A record above the limit is accepted and synced. Then reading the log fails, and the log
that is reopened is empty. -/
theorem Log.oversized_record_lost : ∃ log₁, Log.append oversized Log.lone = (.ok 1, log₁) ∧
    Log.sync log₁ = (.ok (), Log.loneRecord oversized) ∧
    (Log.readAll (Log.loneRecord oversized)).1 =
      .error (.err (.wal "unexpected partial/corrupt record while iterating")) ∧
    (Log.open 9 (Log.loneRecord oversized).dir).1 = .ok Log.lone ∧
    (Log.readAll Log.lone).1 = .ok [] := by
  have length : oversized.length = maxRecordLen + 1 := List.length_replicate
  have large : maxRecordLen < oversized.length := by
    rw [length]
    exact Nat.lt_succ_self _
  have cast : oversized.length < 256 ^ 4 := by
    rw [length]
    decide
  obtain ⟨log₁, appended, synced⟩ := Log.lone_append oversized
  obtain ⟨fails, reopens⟩ := Log.loneRecord_lost large cast (zeros_unclean (by decide))
  exact ⟨log₁, appended, synced, fails, reopens, rfl⟩

end WalKv
