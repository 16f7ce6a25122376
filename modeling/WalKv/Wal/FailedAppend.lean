import WalKv.Wal.Exactness
import WalKv.Wal.Layout

/-! What a failed append leaves behind. The frame of a record goes out in three writes, and
what the writer has accepted of it when one of them fails stays in front of all that is
appended later, while the segment does not count it. -/
namespace WalKv
open Framing (stream)
open LittleEndian

namespace Segment
variable {dir dir' : Dir} {seg seg' : Segment} {bytes : Bytes}

/-- The segment's file and its buffer together hold these bytes. -/
def Carries (dir : Dir) (seg : Segment) (bytes : Bytes) : Prop :=
  ∃ file, dir.find seg.baseIndex = some file ∧ file.content ++ seg.buffer = bytes

theorem flushBuf_healthy {file : File} (healthy : dir.outcomes = [])
    (found : dir.find seg.baseIndex = some file) : flushBuf (dir, seg) = (.ok (),
      dir.setFile seg.baseIndex { file with content := file.content ++ seg.buffer },
      { seg with buffer := [] }) := by
  by_cases empty : seg.buffer = []
  · have same : { seg with buffer := [] } = seg := by rw [← empty]
    have content : { file with content := file.content ++ seg.buffer } = file := by
      rw [empty, List.append_nil]
    have files : dir.setFile seg.baseIndex file = dir := by
      rw [Dir.setFile, Keyed.put_self found]
    rw [same, content, files]
    simp only [flushBuf, if_pos empty]
  · simp only [flushBuf, if_neg empty, Dir.write, Dir.accepted, Dir.attempt, healthy, found,
      List.take_length, List.drop_length]

theorem sync_healthy {file : File} (healthy : dir.outcomes = [])
    (found : dir.find seg.baseIndex = some file) : sync (dir, seg) = (.ok (),
      dir.setFile seg.baseIndex
        ⟨file.content ++ seg.buffer, (file.content ++ seg.buffer).length⟩,
      { seg with buffer := [] }) := by
  rw [sync, Fallible.bind_ok (flushBuf_healthy healthy found)]
  simp only [Fallible.bind_run, Fallible.get_run, onDir, Fallible.part_run,
    Dir.syncAll_setFile healthy found]

theorem Carries.sync_ok (carries : Carries dir seg bytes)
    (synced : sync (dir, seg) = (.ok (), dir', seg')) :
    seg' = { seg with buffer := [] } ∧
      ∃ file, dir'.find seg'.baseIndex = some file ∧ file.content = bytes ∧
        dir'.files = Keyed.put seg.baseIndex file dir.files := by
  obtain ⟨file, found, rfl⟩ := carries
  obtain ⟨file', part, wrote, inside, _, _⟩ := flushBuf_writes (dir, seg) file found
  obtain ⟨⟨⟩, ⟨dir₁, seg₁⟩, flushed, ended⟩ := Fallible.of_bind_ok synced
  have empty := flushBuf_empties flushed
  have found' := wrote.found found
  rw [List.prefix_nil.mp inside] at wrote
  rw [flushed] at wrote found'
  have same : seg₁ = { seg with buffer := seg₁.buffer } := wrote.seg
  have total := wrote.total
  simp only [List.append_nil] at total empty
  rw [empty] at same total
  subst same
  rw [List.append_nil] at total
  have files : dir₁.files = Keyed.put seg.baseIndex file' dir.files := congrArg Dir.files wrote.dir
  rcases Dir.attempt_cases dir₁ with ⟨outcomes, ready, _⟩ | ⟨stop, outcomes, stopped, _⟩
  · simp only [Fallible.bind_run, Fallible.get_run, onDir, Fallible.part_run,
      Dir.syncAll_run ready found'] at ended
    cases ended
    refine ⟨rfl, _, Keyed.lookup_put found', total, ?_⟩
    simp only [Dir.setFile, files, Keyed.put_put]
  · simp only [Fallible.bind_run, Fallible.get_run, onDir, Fallible.part_run, Dir.syncAll,
      Dir.existing_stopped stopped] at ended
    cases ended

section Records
variable [Checksum] {payload : Bytes} {records later : List Bytes}

theorem Carries.append_ok (carries : Carries dir seg bytes)
    (appended : append payload (dir, seg) = (.ok (), dir', seg')) :
    Carries dir' seg' (bytes ++ frame payload) ∧ seg'.baseIndex = seg.baseIndex ∧
      seg'.bytes = seg.bytes + (frame payload).length ∧ seg'.count = seg.count + 1 := by
  obtain ⟨file, found, rfl⟩ := carries
  obtain ⟨file', part, buffer, outcomes, _, total, _, _, ⟨rfl, _, ran⟩ | ⟨_, _, stop, ran⟩⟩ :=
    append_cases found payload
  · rw [ran] at appended
    cases appended
    exact ⟨⟨file', Keyed.lookup_put found, total⟩, rfl, rfl, rfl⟩
  · rw [ran] at appended
    cases appended

theorem Carries.append_error {stop : Stop} (carries : Carries dir seg bytes)
    (failed : append payload (dir, seg) = (.error stop, dir', seg')) :
    ∃ part, (part = [] ↔ Refuses dir seg) ∧ Carries dir' seg' (bytes ++ part) ∧
      seg' = { seg with buffer := seg'.buffer } := by
  obtain ⟨file, found, rfl⟩ := carries
  obtain ⟨file', part, buffer, outcomes, _, total, _, _, ⟨rfl, _, ran⟩ | ⟨_, none, stop', ran⟩⟩ :=
    append_cases found payload
  · rw [ran] at failed
    cases failed
  · rw [ran] at failed
    cases failed
    exact ⟨part, none, ⟨file', Keyed.lookup_put found, total⟩, rfl⟩

theorem Carries.appendAll_ok (carries : Carries dir seg bytes)
    (appended : Log.appendAll later (dir, seg) = (.ok (), dir', seg')) :
    Carries dir' seg' (bytes ++ stream frame later) ∧ seg'.baseIndex = seg.baseIndex ∧
      seg'.bytes = seg.bytes + (stream frame later).length ∧
      seg'.count = seg.count + later.length := by
  induction later generalizing dir seg bytes with
  | nil =>
    cases appended
    exact ⟨by simpa using carries, rfl, rfl, rfl⟩
  | cons payload later ih =>
    obtain ⟨⟨⟩, ⟨dir₁, seg₁⟩, first, rest⟩ := Fallible.of_bind_ok appended
    obtain ⟨carries₁, base, size, count⟩ := carries.append_ok first
    obtain ⟨carries₂, base', size', count'⟩ := ih carries₁ rest
    rw [List.append_assoc] at carries₂
    refine ⟨carries₂, base'.trans base, ?_, ?_⟩
    · rw [size', size, Framing.stream_cons, List.length_append]
      omega
    · rw [count', count, List.length_cons]
      omega

/-- The segment counts these records, and its file reads as them where the reads go well: in
place and after recovery. -/
structure Faithful (dir : Dir) (seg : Segment) (records : List Bytes) : Prop where
  iterates : (seg.iter { dir with outcomes := [] }).1 = .ok (records.map .ok)
  recovers : ∃ seg' dir', recover seg.baseIndex { dir with outcomes := [] } = (.ok seg', dir') ∧
    seg'.count = records.length ∧ (seg'.iter dir').1 = .ok (records.map .ok)
  count : seg.count = records.length
  bytes : ∃ file, dir.find seg.baseIndex = some file ∧ seg.bytes = file.content.length

theorem iter_exact_iff {file : File} (healthy : dir.outcomes = [])
    (found : dir.find seg.baseIndex = some file) :
    (seg.iter dir).1 = .ok (records.map .ok) ↔ file.content = stream frame records ∧ Fits records := by
  rw [← items_exact_iff (Nat.lt_succ_self file.content.length), iter,
    Fallible.bind_ok (Dir.read_run (Dir.ready_nil healthy) found)]
  exact ⟨fun same => Except.ok.inj same, fun same => congrArg Except.ok same⟩

theorem faithful_iff {file : File} (found : dir.find seg.baseIndex = some file) :
    Faithful dir seg records ↔ file.content = stream frame records ∧ Fits records ∧
      seg.count = records.length ∧ seg.bytes = file.content.length := by
  have found' : Dir.find seg.baseIndex { dir with outcomes := [] } = some file := found
  constructor
  · intro faithful
    obtain ⟨content, fits⟩ := (iter_exact_iff rfl found').mp faithful.iterates
    obtain ⟨file', found'', size⟩ := faithful.bytes
    rw [found] at found''
    cases found''
    exact ⟨content, fits, faithful.count, size⟩
  · rintro ⟨content, fits, count, size⟩
    refine ⟨(iter_exact_iff rfl found').mpr ⟨content, fits⟩, ?_, count, file, found, size⟩
    have whole : file.content = stream frame records ++ [] := by
      rw [content, List.append_nil]
    have recovered := recover_run rfl found' whole (.inl rfl) fits
    refine ⟨_, _, recovered, rfl, ?_⟩
    exact (iter_exact_iff rfl (Dir.find_setFile found')).mpr ⟨rfl, fits⟩

theorem parse_short {header rest : Bytes} (full : header.length = headerLen)
    (small : decode (header.drop 4) ≤ maxRecordLen) (short : rest.length < decode (header.drop 4)) :
    parse (header ++ rest) = (.truncated, []) := by
  simp only [parse, List.take_left' full, List.drop_left' full, full]
  rw [if_neg (by decide), if_neg (Nat.lt_irrefl _), if_neg (Nat.not_lt.mpr small),
    if_pos (by rw [List.length_take]; omega), List.drop_eq_nil_of_le (Nat.le_of_lt short)]

variable {dir₁ dir₂ dir₃ : Dir} {seg₁ seg₂ seg₃ : Segment} {stop : Stop}

/-- After a failed append, appends that succeed and a sync, the segment is faithful to the
successful appends exactly if the writer had refused the failed one as a whole, and the
records are not too long to be read. -/
theorem append_failed_harmless_iff (c : Chunk) (found : dir.find c.base = some c.file)
    (failed : append payload (dir, c.segment) = (.error stop, dir₁, seg₁))
    (appended : Log.appendAll later (dir₁, seg₁) = (.ok (), dir₂, seg₂))
    (synced : sync (dir₂, seg₂) = (.ok (), dir₃, seg₃)) :
    Faithful dir₃ seg₃ (c.records ++ later) ↔
      Refuses dir c.segment ∧ Fits later := by
  have carries : Carries dir c.segment (stream frame c.records) := ⟨c.file, found, c.written⟩
  obtain ⟨part, refused, carries₁, same⟩ := carries.append_error failed
  obtain ⟨carries₂, base, size, count⟩ := carries₁.appendAll_ok appended
  obtain ⟨rfl, file, found₃, content, _⟩ := carries₂.sync_ok synced
  rw [faithful_iff found₃, content, Framing.stream_append]
  constructor
  · rintro ⟨exact', fits, _, _⟩
    have none : part = [] := by
      have length := congrArg List.length exact'
      simp only [List.length_append] at length
      exact List.length_eq_zero_iff.mp (by omega)
    exact ⟨refused.mp none, fun x member => fits x (List.mem_append_right _ member)⟩
  · rintro ⟨refuses, fits⟩
    rw [refused.mpr refuses, List.append_nil]
    refine ⟨rfl, ?_, ?_, ?_⟩
    · intro x member
      rcases List.mem_append.mp member with old | new
      · exact c.fits x old
      · exact fits x new
    · rw [List.length_append, ← c.count]
      exact count.trans (by rw [same])
    · rw [List.length_append, ← c.bytes]
      exact size.trans (by rw [same])

omit [Checksum] in
theorem writeAll_buffered (dir : Dir) (seg : Segment) (bytes : Bytes)
    (room : seg.buffer.length + bytes.length < bufferCapacity) :
    writeAll bytes (dir, seg) = (.ok (), dir, { seg with buffer := seg.buffer ++ bytes }) := by
  simp only [writeAll, Fallible.bind_run, Fallible.get_run, if_pos room]
  rfl

omit [Checksum] in
theorem writeAll_stops {file : File} {msg : String} {outcomes : List Outcome}
    (found : dir.find seg.baseIndex = some file)
    (ends : dir.outcomes = .done :: .failed 0 msg :: outcomes) (some_byte : seg.buffer ≠ [])
    (large : bufferCapacity ≤ bytes.length) :
    writeAll bytes (dir, seg) = (.error (.err (.io msg)),
      { dir.setFile seg.baseIndex { file with content := file.content ++ seg.buffer } with outcomes },
      { seg with buffer := [] }) := by
  have positive := List.length_pos_iff.mpr some_byte
  have over_capacity : bufferCapacity < seg.buffer.length + bytes.length := by omega
  have found₁ : Dir.find seg.baseIndex { dir with outcomes := .failed 0 msg :: outcomes } =
      some file := found
  have flushed : flushBuf (dir, seg) = (.ok (),
      { dir.setFile seg.baseIndex { file with content := file.content ++ seg.buffer } with
        outcomes := .failed 0 msg :: outcomes }, { seg with buffer := [] }) := by
    simp only [flushBuf, if_neg some_byte, Dir.write, Dir.accepted, Dir.attempt, ends, found₁,
      List.take_length, List.drop_length]
    rfl
  have found₂ : Dir.find seg.baseIndex { dir.setFile seg.baseIndex
      { file with content := file.content ++ seg.buffer } with outcomes } =
      some { file with content := file.content ++ seg.buffer } := Keyed.lookup_put found
  simp only [writeAll, Fallible.bind_run, Fallible.get_run, if_neg (Nat.not_lt.mpr over_capacity.le),
    Fallible.when, if_pos over_capacity, flushed, if_pos large, writeFile, Dir.write, Dir.accepted,
    Dir.attempt, found₂, Nat.zero_min, List.take_zero, List.append_nil]
  simp only [Dir.setFile, Keyed.put_put]

theorem append_stops_behind_header {base size count : Nat} {file : File} {msg : String}
    {outcomes : List Outcome} (found : dir.find base = some file)
    (ends : dir.outcomes = .done :: .failed 0 msg :: outcomes)
    (large : bufferCapacity ≤ payload.length) :
    append payload (dir, ⟨base, [], size, count⟩) = (.error (.err (.io msg)),
      { dir.setFile base { file with content := file.content ++ recordHeader payload } with outcomes },
      ⟨base, [], size, count⟩) := by
  have crc := writeAll_buffered dir ⟨base, [], size, count⟩
    (encode 4 (Checksum.crc (encode 4 payload.length ++ payload)).toNat) (by simp [bufferCapacity])
  have len := writeAll_buffered dir ⟨base, encode 4 (Checksum.crc (encode 4 payload.length ++
    payload)).toNat, size, count⟩ (encode 4 payload.length) (by simp [bufferCapacity])
  have some_byte : recordHeader payload ≠ [] := by
    intro empty
    have length := recordHeader_length payload
    rw [empty] at length
    cases length
  have stopped : writeAll payload (dir, ⟨base, recordHeader payload, size, count⟩) = _ :=
    writeAll_stops found ends some_byte large
  rw [append, recordParts, writeParts, writeParts, writeParts]
  refine Fallible.bind_error ?_
  calc
    _ = _ := Fallible.bind_ok crc
    _ = _ := Fallible.bind_ok len
    _ = _ := Fallible.bind_error stopped

theorem append_stops_in_front {file : File} {msg : String} {outcomes : List Outcome}
    (found : dir.find seg.baseIndex = some file) (ends : dir.outcomes = .failed 0 msg :: outcomes)
    (full : bufferCapacity < seg.buffer.length + 4) :
    append payload (dir, seg) = (.error (.err (.io msg)), { dir with outcomes }, seg) := by
  have some_byte : seg.buffer ≠ [] := by
    intro empty
    rw [empty] at full
    exact absurd full (by decide)
  have found' : Dir.find seg.baseIndex { dir with outcomes } = some file := found
  have same : { dir with outcomes }.setFile seg.baseIndex file = { dir with outcomes } := by
    rw [Dir.setFile, Keyed.put_self found']
  have flushed : flushBuf (dir, seg) = (.error (.err (.io msg)), { dir with outcomes }, seg) := by
    simp only [flushBuf, if_neg some_byte, Dir.write, Dir.accepted, Dir.attempt, ends, found',
      Nat.zero_min, List.take_zero, List.append_nil, List.drop_zero, same]
  have length := encode_length 4 (Checksum.crc (encode 4 payload.length ++ payload)).toNat
  have stopped : writeAll (encode 4 (Checksum.crc (encode 4 payload.length ++ payload)).toNat)
      (dir, seg) = (.error (.err (.io msg)), { dir with outcomes }, seg) := by
    simp only [writeAll, Fallible.bind_run, Fallible.get_run, length,
      if_neg (Nat.not_lt.mpr full.le), Fallible.when, if_pos full, flushed]
  rw [append, recordParts, writeParts]
  exact Fallible.bind_error (Fallible.bind_error stopped)

end Records

/-- A record that is in the write buffer, all of it. -/
def pending [Checksum] (base : Nat) (payload : Bytes) (small : payload.length ≤ maxRecordLen) :
    Chunk where
  segment := ⟨base, frame payload, (frame payload).length, 1⟩
  file := ⟨[], 0⟩
  records := [payload]
  written := by simp
  bytes := by simp
  count := rfl
  durable := Nat.le_refl 0
  fits payload member := by
    rw [List.mem_singleton.mp member]
    exact small

/-- A record that leaves no room behind it for another checksum. -/
def bulky : Bytes := List.replicate 8181 0

theorem bulky_length : bulky.length = 8181 := List.length_replicate

theorem bulky_small : bulky.length ≤ maxRecordLen := by
  rw [bulky_length]
  decide

def brimming : Chunk := pending 1 bulky bulky_small

/-- The flush in front of the checksum fails once, which does no harm. -/
theorem append_failed_harmless_iff_flush : ∃ stop dir₁ seg₁ dir₂ seg₂ dir₃ seg₃,
    append [1] (⟨"wal", [(1, ⟨[], 0⟩)], [], [.failed 0 "Input/output error"]⟩, brimming.segment) =
      (.error stop, dir₁, seg₁) ∧
    Log.appendAll [[1]] (dir₁, seg₁) = (.ok (), dir₂, seg₂) ∧
    sync (dir₂, seg₂) = (.ok (), dir₃, seg₃) ∧ Faithful dir₃ seg₃ [bulky, [1]] := by
  have small : Fits [[1]] := by
    unfold Fits
    decide
  have full : bufferCapacity < brimming.segment.buffer.length + 4 := by
    show bufferCapacity < (frame bulky).length + 4
    rw [frame_length, bulky_length]
    decide
  have failed : append [1]
      (⟨"wal", [(1, ⟨[], 0⟩)], [], [.failed 0 "Input/output error"]⟩, brimming.segment) = _ :=
    append_stops_in_front (Eq.refl (some brimming.file)) rfl full
  have found : Dir.find brimming.base ⟨"wal", [(1, ⟨[], 0⟩)], [], []⟩ = some brimming.file :=
    rfl
  obtain ⟨file, _, left⟩ := brimming.appendAll_left found [[1]] small
  obtain ⟨ended, healthy⟩ := left.healthy rfl
  obtain ⟨c, segment, same, grown, base⟩ := left.done ended
  have found' := left.found found
  rw [← same, ← base] at found'
  have synced := c.sync_run healthy found'
  rcases ran : Log.appendAll [[1]] (⟨"wal", [(1, ⟨[], 0⟩)], [], []⟩, brimming.segment) with
    ⟨_, dir₂, seg₂⟩
  rw [ran] at ended segment synced
  cases ended
  rw [segment] at synced
  refine ⟨_, _, _, dir₂, seg₂, _, _, failed, ran, synced, ?_⟩
  have refuses : Refuses ⟨"wal", [(1, ⟨[], 0⟩)], [], [.failed 0 "Input/output error"]⟩
      brimming.segment := ⟨full, by decide⟩
  exact (append_failed_harmless_iff brimming rfl failed ran synced).mpr ⟨refuses, small⟩

/-- As many bytes as a write buffer takes. -/
def overfull : Bytes := List.replicate bufferCapacity 0

/-- An empty segment file, and a disk that is full after the next write. -/
def nearlyFull : Dir := ⟨"wal", [(1, ⟨[], 0⟩)], [], [.done, .failed 0 "No space left on device"]⟩

/-- A segment file that holds these bytes. -/
def holdingOne (bytes : Bytes) (synced : Nat) : Dir := ⟨"wal", [(1, ⟨bytes, synced⟩)], [], []⟩

theorem append_nearlyFull (payload : Bytes) (large : bufferCapacity ≤ payload.length) :
    append payload (nearlyFull, ⟨1, [], 0, 0⟩) = (.error (.err (.io "No space left on device")),
      holdingOne (recordHeader payload) 0, ⟨1, [], 0, 0⟩) := by
  have found : nearlyFull.find 1 = some ⟨[], 0⟩ := rfl
  exact append_stops_behind_header found rfl large

theorem append_behind (bytes : Bytes) : Log.appendAll [[1]] (holdingOne bytes 0, ⟨1, [], 0, 0⟩) =
    (.ok (), holdingOne bytes 0, ⟨1, frame [1], 9, 1⟩) := rfl

theorem sync_behind (bytes : Bytes) : sync (holdingOne bytes 0, ⟨1, frame [1], 9, 1⟩) =
    (.ok (), holdingOne (bytes ++ frame [1]) (bytes ++ frame [1]).length, ⟨1, [], 9, 1⟩) := rfl

theorem parse_hidden : parse (recordHeader overfull ++ frame [1]) = (.truncated, []) := by
  have large : overfull.length = 8192 := List.length_replicate
  have len : decode ((recordHeader overfull).drop 4) = 8192 := by
    rw [recordHeader, List.drop_left' (encode_length _ _), large, decode_encode (by decide)]
  exact parse_short (recordHeader_length _) (by rw [len]; decide) (by rw [len]; decide)

/-- A record is appended and synced behind the header that a failed append has left. Reading
the file fails, and recovery drops the record. -/
theorem failed_append_hides_record : ∃ dir₁ seg₁ dir₂ seg₂ dir₃ seg₃,
    append overfull (nearlyFull, ⟨1, [], 0, 0⟩) =
      (.error (.err (.io "No space left on device")), dir₁, seg₁) ∧
    Log.appendAll [[1]] (dir₁, seg₁) = (.ok (), dir₂, seg₂) ∧
    sync (dir₂, seg₂) = (.ok (), dir₃, seg₃) ∧
    (seg₃.iter dir₃).1 =
      .ok [.error (.wal "unexpected partial/corrupt record while iterating")] ∧
    (recover 1 dir₃).1 = .ok ⟨1, [], 0, 0⟩ ∧ ¬ Faithful dir₃ seg₃ [[1]] := by
  have failed := append_nearlyFull overfull List.length_replicate.ge
  have read := readRecord_whole (recordHeader overfull ++ frame [1])
  rw [parse_hidden] at read
  generalize recordHeader overfull = header at failed read
  have found : (holdingOne (header ++ frame [1]) (header ++ frame [1]).length).find 1 =
      some ⟨header ++ frame [1], (header ++ frame [1]).length⟩ := rfl
  have iterated : (iter ⟨1, [], 9, 1⟩ (holdingOne (header ++ frame [1])
      (header ++ frame [1]).length)).1 =
      .ok [.error (.wal "unexpected partial/corrupt record while iterating")] := by
    rw [iter, Fallible.bind_ok (Dir.read_run (Dir.ready_nil rfl) found), Fallible.pure_run, items,
      read]
  refine ⟨_, _, _, _, _, _, failed, append_behind header, sync_behind header, iterated, ?_, ?_⟩
  · rw [recover_scanned rfl found (Nat.zero_le _) (by rw [recoverLoop, read]; rfl)]
  · intro faithful
    cases iterated.symm.trans faithful.iterates

end Segment
end WalKv
