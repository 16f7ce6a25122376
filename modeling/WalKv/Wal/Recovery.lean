import WalKv.Wal.Chunk

/-! Reopening a log. A file that holds whole records and a torn one is cut back to
the whole records, and a log of such files is read back record by record. -/
namespace WalKv
open Framing (stream Torn)

variable [Checksum] {dir : Dir} {records : List Bytes} {tail : Bytes}

/-- What a crash may leave behind the last whole record. -/
def Tail (tail : Bytes) : Prop :=
  tail = [] ∨ ∃ payload, payload.length ≤ maxRecordLen ∧ Torn frame payload tail

theorem parse_tail (torn : Tail tail) :
    parse tail = (.eof, []) ∨ parse tail = (.truncated, []) := by
  rcases torn with rfl | ⟨payload, small, torn⟩
  · exact Or.inl parse_nil
  · rw [parse_torn small torn]
    split_ifs
    · exact Or.inl rfl
    · exact Or.inr rfl

theorem readRecord_whole (bytes : Bytes) :
    readRecord ⟨bytes, []⟩ = .ok ((parse bytes).1, ⟨(parse bytes).2, []⟩) := by
  simp only [readRecord, fill, fillLoop, bind, Except.bind, parse]
  split_ifs <;> rfl

theorem readRecord_frame {payload : Bytes} (small : payload.length ≤ maxRecordLen)
    (rest : Bytes) : readRecord ⟨frame payload ++ rest, []⟩ = .ok (.entry payload, ⟨rest, []⟩) := by
  rw [readRecord_whole, parse_frame small]

theorem length_le_stream (records : List Bytes) :
    records.length ≤ (stream frame records).length := by
  induction records with
  | nil => exact le_rfl
  | cons payload records ih =>
    rw [Framing.stream_cons, List.length_append, List.length_cons, frame_length, headerLen]
    omega

namespace Segment

theorem recoverLoop_skip (path : String) {fileLen offset : Nat} (fuel count : Nat)
    (fits : Fits records) (rest : Bytes)
    (total : offset + (stream frame records ++ rest).length = fileLen) :
    recoverLoop path fileLen (records.length + fuel) ⟨stream frame records ++ rest, []⟩ offset count =
      recoverLoop path fileLen fuel ⟨rest, []⟩ (offset + (stream frame records).length)
        (count + records.length) := by
  induction records generalizing offset count with
  | nil => simp
  | cons payload records ih =>
    rw [Framing.stream_cons, List.append_assoc, List.length_append] at total
    rw [Framing.stream_cons, List.append_assoc, List.length_cons, Nat.add_right_comm, recoverLoop,
      readRecord_frame (fits payload List.mem_cons_self)]
    show recoverLoop path fileLen _ _ _ _ = _
    rw [ih (count + 1) (fun x member => fits x (List.mem_cons_of_mem _ member))
      (by simp only; omega)]
    simp only [List.length_append] at total ⊢
    congr 1 <;> omega

theorem recoverLoop_stream (path : String) {fileLen fuel offset : Nat} (count : Nat)
    (fits : Fits records) (torn : Tail tail) (enough : records.length < fuel)
    (total : offset + (stream frame records ++ tail).length = fileLen) :
    recoverLoop path fileLen fuel ⟨stream frame records ++ tail, []⟩ offset count =
      .ok (offset + (stream frame records).length, count + records.length) := by
  obtain ⟨fuel, rfl⟩ := Nat.exists_eq_add_of_lt enough
  rw [Nat.add_assoc, recoverLoop_skip path (fuel + 1) count fits tail total, recoverLoop,
    readRecord_whole]
  rcases parse_tail torn with ended | ended <;> rw [ended] <;> rfl

theorem items_stream {fuel : Nat} (fits : Fits records) (enough : records.length < fuel) :
    items fuel ⟨stream frame records, []⟩ = records.map .ok := by
  induction records generalizing fuel with
  | nil =>
    obtain ⟨fuel, rfl⟩ := Nat.exists_eq_succ_of_ne_zero (Nat.ne_of_gt enough)
    rw [Framing.stream_nil, items, readRecord_whole, parse_nil]
    rfl
  | cons payload records ih =>
    obtain ⟨fuel, rfl⟩ := Nat.exists_eq_succ_of_ne_zero (Nat.ne_of_gt (Nat.zero_lt_of_lt enough))
    rw [Framing.stream_cons, items, readRecord_frame (fits payload List.mem_cons_self)]
    simp only
    rw [ih (fun x member => fits x (List.mem_cons_of_mem _ member))
      (by rw [List.length_cons] at enough; omega), List.map_cons]

/-- What reads as a record first begins with its frame. -/
theorem items_cons {fuel : Nat} {bytes payload : Bytes} {later : List (Except Error Bytes)}
    (enough : bytes.length < fuel + 1) (read : items (fuel + 1) ⟨bytes, []⟩ = .ok payload :: later) :
    ∃ rest, bytes = frame payload ++ rest ∧ payload.length ≤ maxRecordLen ∧ rest.length < fuel ∧
      items fuel ⟨rest, []⟩ = later := by
  rw [items, readRecord_whole] at read
  rcases found : parse bytes with ⟨first | _ | _ | _, rest⟩ <;> rw [found] at read
  · obtain ⟨same, later⟩ := List.cons.inj read
    obtain rfl := Except.ok.inj same
    obtain ⟨rfl, small⟩ := parse_exact found
    rw [List.length_append, frame_length, headerLen] at enough
    exact ⟨rest, rfl, small, by omega, later⟩
  · cases read
  · cases read
  · cases read

/-- Only a stream of records is read to its end without an error. -/
theorem items_exact_iff {fuel : Nat} {bytes : Bytes} (enough : bytes.length < fuel) :
    items fuel ⟨bytes, []⟩ = records.map .ok ↔ bytes = stream frame records ∧ Fits records := by
  constructor
  · intro read
    induction records generalizing fuel bytes with
    | nil =>
      obtain ⟨fuel, rfl⟩ := Nat.exists_eq_succ_of_ne_zero (Nat.ne_zero_of_lt enough)
      rw [items, readRecord_whole] at read
      rcases found : parse bytes with ⟨payload | _ | _ | _, rest⟩ <;> rw [found] at read
      · cases read
      · exact ⟨parse_eof (congrArg Prod.fst found), fits_nil⟩
      · cases read
      · cases read
    | cons payload records ih =>
      obtain ⟨fuel, rfl⟩ := Nat.exists_eq_succ_of_ne_zero (Nat.ne_zero_of_lt enough)
      obtain ⟨rest, rfl, small, shorter, later⟩ := items_cons enough read
      obtain ⟨rfl, fits⟩ := ih shorter later
      exact ⟨rfl, List.forall_mem_cons.mpr ⟨small, fits⟩⟩
  · rintro ⟨rfl, fits⟩
    exact items_stream fits (lt_of_le_of_lt (length_le_stream records) enough)

theorem iter_run {outcomes : List Outcome} {seg : Segment} {file : File}
    (ready : dir.Ready outcomes) (found : dir.find seg.baseIndex = some file)
    (content : file.content = stream frame records) (fits : Fits records) :
    seg.iter dir = (.ok (records.map .ok), { dir with outcomes }) := by
  simp only [iter, Fallible.bind_run, Dir.read_run ready found, Fallible.pure_run, content]
  rw [items_stream fits (Nat.lt_succ_of_le (length_le_stream records))]

theorem recover_scanned {base offset count : Nat} {file : File} (healthy : dir.outcomes = [])
    (found : dir.find base = some file) (within : offset ≤ file.content.length)
    (scanned : recoverLoop (segmentPath dir.path base) file.content.length (file.content.length + 1)
      ⟨file.content, []⟩ 0 0 = .ok (offset, count)) :
    recover base dir = (.ok ⟨base, [], offset, count⟩,
      dir.setFile base ⟨file.content.take offset, offset⟩) := by
  simp only [recover, Fallible.bind_run, Fallible.get_run, Dir.read, Dir.openWrite,
    Dir.existing_ok healthy found, Fallible.pure_run, scanned, Fallible.lift_run, Except.mapError,
    Dir.setLen_ok healthy found within, Dir.syncAll_setFile healthy found, List.length_take,
    Nat.min_eq_left within]

theorem recover_run {base : Nat} {file : File} (healthy : dir.outcomes = [])
    (found : dir.find base = some file) (content : file.content = stream frame records ++ tail)
    (torn : Tail tail) (fits : Fits records) :
    recover base dir = (.ok (Chunk.settled base records fits).segment,
      dir.setFile base (Chunk.settled base records fits).file) := by
  have enough : records.length < (stream frame records ++ tail).length + 1 := by
    have := length_le_stream records
    rw [List.length_append]
    omega
  have looped := recoverLoop_stream (segmentPath dir.path base) 0 fits torn enough (Nat.zero_add _)
  have within : (stream frame records).length ≤ file.content.length := by
    rw [content, List.length_append]
    omega
  rw [← content, Nat.zero_add, Nat.zero_add] at looped
  rw [recover_scanned healthy found within looped, content, List.take_left]
  rfl

end Segment

/-- A segment file as a crash may leave it. -/
structure Remnant where
  base : Nat
  records : List Bytes
  tail : Bytes
  synced : Nat
  fits : Fits records
  torn : Tail tail

namespace Remnant

def entry (r : Remnant) : Nat × File := (r.base, ⟨stream frame r.records ++ r.tail, r.synced⟩)

/-- What recovery makes of it. -/
def recovered (r : Remnant) : Chunk := .settled r.base r.records r.fits

end Remnant

/-- The file of a synced segment as every crash leaves it. -/
def Chunk.intact (c : Chunk) : Remnant where
  base := c.base
  records := c.records
  tail := []
  synced := (stream frame c.records).length
  fits := c.fits
  torn := Or.inl rfl

/-- Records with the indices they have from `i` on. -/
def number (i : Nat) (records : List Bytes) : List (Nat × Bytes) :=
  (records.zipIdx i).map Prod.swap

omit [Checksum] in
theorem number_length (i : Nat) (records : List Bytes) :
    (number i records).length = records.length := by
  simp [number]

omit [Checksum] in
theorem number_append (i : Nat) (first second : List Bytes) :
    number i (first ++ second) = number i first ++ number (i + first.length) second := by
  simp [number, List.zipIdx_append]

omit [Checksum] in
theorem mem_number {i j : Nat} {records : List Bytes} {payload : Bytes} :
    (j, payload) ∈ number i records ↔ i ≤ j ∧ records[j - i]? = some payload := by
  rw [number, List.mem_map_swap, List.mem_zipIdx_iff_le_and_getElem?_sub]

omit [Checksum] in
theorem mem_number_take {i n : Nat} {records : List Bytes} {record : Nat × Bytes} :
    record ∈ number i (records.take n) ↔ record ∈ number i records ∧ record.1 < i + n := by
  rw [mem_number, mem_number, List.getElem?_take]
  constructor
  · rintro ⟨from_start, found⟩
    split_ifs at found with inside
    exact ⟨⟨from_start, found⟩, by omega⟩
  · rintro ⟨⟨from_start, found⟩, inside⟩
    rw [if_pos (by omega)]
    exact ⟨from_start, found⟩

namespace Log

omit [Checksum] in
theorem numbered_ok (i : Nat) (records : List Bytes) :
    numbered i (records.map .ok) = .ok (number i records) := by
  induction records generalizing i with
  | nil => rfl
  | cons payload records ih =>
    rw [List.map_cons, numbered, ih]
    rfl

omit [Checksum] in
theorem survivors_ok (keepLast i : Nat) (records : List Bytes) :
    survivors keepLast i (records.map .ok) = .ok (records.take (keepLast + 1 - i)) := by
  induction records generalizing i with
  | nil => simp [survivors]
  | cons payload records ih =>
    rw [List.map_cons, survivors]
    split_ifs with past
    · rw [show keepLast + 1 - i = 0 by omega, List.take_zero]
    · rw [ih, show keepLast + 1 - i = keepLast + 1 - (i + 1) + 1 by omega, List.take_succ_cons]
      rfl

/-- The induction is on the files still to recover; those done come first. -/
theorem recoverAll_run {done : List (Nat × File)} {remnants : List Remnant}
    (healthy : dir.outcomes = []) (files : dir.files = done ++ remnants.map Remnant.entry)
    (distinct : (dir.files.map Prod.fst).Nodup) :
    recoverAll (remnants.map Remnant.base) dir =
      (.ok (remnants.map (·.recovered.segment)),
        { dir with files := done ++ remnants.map (·.recovered.entry) }) := by
  induction remnants generalizing done dir with
  | nil =>
    rw [List.map_nil, List.append_nil] at files
    simp [recoverAll, ← files]
  | cons r remnants ih =>
    rw [List.map_cons] at files
    have ran : Segment.recover r.base dir = (.ok r.recovered.segment,
        { dir with files := done ++ [r.recovered.entry] ++ remnants.map Remnant.entry }) := by
      rw [Segment.recover_run healthy (Dir.find_middle files distinct) rfl r.torn r.fits,
        Dir.setFile_middle files distinct]
      rfl
    have later : recoverAll (remnants.map Remnant.base)
        { dir with files := done ++ [r.recovered.entry] ++ remnants.map Remnant.entry } =
        (.ok (remnants.map (·.recovered.segment)), { dir with
          files := done ++ [r.recovered.entry] ++ remnants.map (·.recovered.entry) }) := by
      refine ih healthy rfl ?_
      have key : r.recovered.entry.1 = r.entry.1 := rfl
      rw [files] at distinct
      simpa [List.map_append, key] using distinct
    rw [List.map_cons, recoverAll, Fallible.bind_ok ran, Fallible.bind_ok later]
    simp [List.append_assoc]

/-- The log that reopening a directory of such files gives. -/
def reopened (dir : Dir) (maxSegmentBytes : Nat) (remnants : List Remnant) (first last : Remnant) :
    Log where
  dir := { dir with files := remnants.map (·.recovered.entry) }
  maxSegmentBytes
  segments := remnants.map (·.recovered.segment)
  firstIndex := first.base
  lastIndex := last.base + last.records.length - 1

theorem open_run {dir : Dir} {remnants : List Remnant} {first last : Remnant}
    (maxSegmentBytes : Nat) (healthy : dir.outcomes = []) (named : dir.malformed = [])
    (files : dir.files = remnants.map Remnant.entry)
    (ordered : (remnants.map Remnant.base).Pairwise (· < ·))
    (starts : remnants.head? = some first) (ends : remnants.getLast? = some last) :
    (Log.open maxSegmentBytes dir).1 = .ok (reopened dir maxSegmentBytes remnants first last) := by
  have bases : dir.files.map Prod.fst = remnants.map Remnant.base := by
    rw [files, List.map_map]
    rfl
  have sorted : (remnants.map Remnant.base).insertionSort (· ≤ ·) = remnants.map Remnant.base :=
    (ordered.imp Nat.le_of_lt).insertionSort_eq
  have some_base : remnants.map Remnant.base ≠ [] := by
    rintro empty
    rw [List.map_eq_nil_iff.mp empty] at starts
    cases starts
  have files : dir.files = [] ++ remnants.map Remnant.entry := files
  have recovered := recoverAll_run healthy files (bases ▸ ordered.imp Nat.ne_of_lt)
  simp only [Log.open, Fallible.bind_run, Fallible.get_run, discoverSegments, named, bases,
    Except.mapError, Fallible.lift_run, some_base, if_false, sorted, recovered, List.head?_map,
    List.getLast?_map, starts, ends, Option.map_some, Fallible.pure_run, List.nil_append]
  have ending : (if last.recovered.segment.count = 0 then last.recovered.segment.baseIndex - 1
      else last.recovered.segment.baseIndex + last.recovered.segment.count - 1) =
      last.base + last.records.length - 1 := by
    have count : last.recovered.segment.count = last.records.length := rfl
    have base : last.recovered.segment.baseIndex = last.base := rfl
    rw [count, base]
    split_ifs with empty
    · rw [empty, Nat.add_zero]
    · rfl
  rw [ending, reopened, named]
  rfl

theorem readSegments_run {chunks : List Chunk} (healthy : dir.outcomes = [])
    (found : ∀ c ∈ chunks, dir.find c.base = some c.file)
    (reached : ∀ c ∈ chunks, c.file.content = stream frame c.records) :
    readSegments (chunks.map Chunk.segment) dir =
      (.ok (chunks.flatMap fun c => number c.base c.records), dir) := by
  induction chunks with
  | nil => rfl
  | cons c chunks ih =>
    have items := Segment.iter_run (Dir.ready_nil healthy) (found c List.mem_cons_self)
      (reached c List.mem_cons_self) c.fits
    rw [Dir.with_nil healthy] at items
    have rest := ih (fun x inside => found x (List.mem_cons_of_mem _ inside))
      fun x inside => reached x (List.mem_cons_of_mem _ inside)
    simp only [List.map_cons, readSegments, Fallible.bind_run, items, numbered_ok, Except.mapError,
      Fallible.lift_run, rest, Fallible.pure_run, List.flatMap_cons]
    rfl

theorem find_entry {chunks : List Chunk} (files : dir.files = chunks.map Chunk.entry)
    (distinct : (dir.files.map Prod.fst).Nodup) {c : Chunk} (member : c ∈ chunks) :
    dir.find c.base = some c.file := by
  obtain ⟨before, after, rfl⟩ := List.append_of_mem member
  rw [List.map_append, List.map_cons] at files
  exact Dir.find_middle files distinct

/-- Reading a reopened log gives the whole records of every file. -/
theorem readAll_reopened {dir : Dir} (maxSegmentBytes : Nat) {remnants : List Remnant}
    (healthy : dir.outcomes = []) (ordered : (remnants.map Remnant.base).Pairwise (· < ·))
    (first last : Remnant) :
    (readAll (reopened dir maxSegmentBytes remnants first last)).1 =
      .ok (remnants.flatMap fun r => number r.base r.records) := by
  have files : (reopened dir maxSegmentBytes remnants first last).dir.files =
      (remnants.map Remnant.recovered).map Chunk.entry := by
    rw [List.map_map]
    rfl
  have segments : (reopened dir maxSegmentBytes remnants first last).segments =
      (remnants.map Remnant.recovered).map Chunk.segment := by
    rw [List.map_map]
    rfl
  have distinct : ((reopened dir maxSegmentBytes remnants first last).dir.files.map
      Prod.fst).Nodup := by
    rw [files, List.map_map, List.map_map]
    exact ordered.imp Nat.ne_of_lt
  have reached : ∀ c ∈ remnants.map Remnant.recovered, c.file.content = stream frame c.records := by
    intro c member
    obtain ⟨r, _, rfl⟩ := List.mem_map.mp member
    exact (Chunk.settled_synced _ _ _).content
  have healthy : (reopened dir maxSegmentBytes remnants first last).dir.outcomes = [] := healthy
  simp only [readAll, Fallible.bind_run, Fallible.get_run, onDir, Fallible.part_run, segments,
    readSegments_run healthy (fun c => find_entry files distinct) reached, List.flatMap_map]
  rfl

theorem reopen_remnants {dir : Dir} (maxSegmentBytes : Nat) {remnants : List Remnant}
    (healthy : dir.outcomes = []) (named : dir.malformed = [])
    (files : dir.files = remnants.map Remnant.entry)
    (ordered : (remnants.map Remnant.base).Pairwise (· < ·)) :
    ∃ log, (Log.open maxSegmentBytes dir).1 = .ok log ∧
      (readAll log).1 = .ok (remnants.flatMap fun r => number r.base r.records) := by
  cases remnants with
  | nil =>
    obtain ⟨path, _, _, _⟩ := dir
    cases files
    cases healthy
    cases named
    exact ⟨_, rfl, rfl⟩
  | cons r remnants =>
    have ends : (r :: remnants).getLast? = some ((r :: remnants).getLast (by simp)) :=
      List.getLast?_eq_some_getLast _
    exact ⟨_, open_run maxSegmentBytes healthy named files ordered rfl ends,
      readAll_reopened maxSegmentBytes healthy ordered _ _⟩

end Log
end WalKv
