import WalKv.Wal.Truncation

/-! How many file operations it takes to write records to a new segment, and what its file holds if
the process ends before the last of them. -/
namespace WalKv
open Framing (stream)

namespace Log

/-- The process crashes after `k` operations. -/
def crashAfter (k : Nat) : List Outcome := List.replicate k .done ++ [.crashed]

theorem crashAfter_succ (k : Nat) : crashAfter (k + 1) = .done :: crashAfter k := rfl

theorem crashAfter_drop {n k : Nat} (within : n ≤ k) :
    (crashAfter k).drop n = crashAfter (k - n) := by
  rw [crashAfter, List.drop_append_of_le_length (by simpa using within), List.drop_replicate]
  rfl

theorem goesWell_crashAfter {n k : Nat} : Dir.GoesWell n (crashAfter k) ↔ n ≤ k := by
  constructor
  · intro well
    by_contra beyond
    have inside : Outcome.crashed ∈ (crashAfter k).take n := by
      rw [List.take_of_length_le (by simp [crashAfter]; omega)]
      simp [crashAfter]
    cases well _ inside
  · intro below outcome inside
    rw [crashAfter, List.take_append_of_le_length (by simpa using below)] at inside
    exact List.eq_of_mem_replicate (List.mem_of_mem_take inside)

end Log

namespace Segment
open Log (crashAfter)

/-- The writes that `write_all` makes of so many bytes behind `held` buffered ones. -/
def writesOf (held size : Nat) : Nat :=
  (if bufferCapacity < held + size ∧ 0 < held then 1 else 0) +
    if bufferCapacity ≤ size then 1 else 0

/-- The bytes that are buffered afterwards. -/
def heldAfter (held size : Nat) : Nat :=
  if bufferCapacity ≤ size then 0 else if bufferCapacity < held + size then size else held + size

/-- The writes of a number of parts one after the other, and of the flush behind them. -/
def writeCount : Nat → List Nat → Nat
  | held, [] => if 0 < held then 1 else 0
  | held, size :: sizes => writesOf held size + writeCount (heldAfter held size) sizes

/-- From `s`, the method writes `bytes` in `n` operations. With fewer to go before the crash it
stops with some byte not in the file. -/
def Spends (m : Method Unit) (bytes : Bytes) (n : Nat) (s : Dir × Segment) : Prop :=
  ∀ file i, s.1.find s.2.baseIndex = some file → s.1.outcomes = crashAfter i →
    ∃ file' outcomes, (m s).2.1 = { s.1.setFile s.2.baseIndex file' with outcomes } ∧
      (m s).2.2.baseIndex = s.2.baseIndex ∧ file'.synced = file.synced ∧
      (n ≤ i ∧ (m s).1 = .ok () ∧ outcomes = crashAfter (i - n) ∧
          file'.content ++ (m s).2.2.buffer = file.content ++ s.2.buffer ++ bytes ∨
        i < n ∧ (m s).1 = .error .crashed ∧
          file'.content.length < (file.content ++ s.2.buffer ++ bytes).length)

variable {s : Dir × Segment} {bytes more : Bytes} {n n' : Nat}

theorem Spends.bind {m m' : Method Unit} (first : Spends m bytes n s)
    (second : ∀ t, m s = (.ok (), t) → Spends m' more n' t) :
    Spends (do m; m') (bytes ++ more) (n + n') s := by
  intro file i found crash
  obtain ⟨file', outcomes, dir, base, synced, ended⟩ := first file i found crash
  rcases ran : m s with ⟨stop | ⟨⟩, t⟩ <;> rw [ran] at dir base ended
  · obtain ⟨_, success, _⟩ | ⟨early, crashed, short⟩ := ended
    · cases success
    · rw [Fallible.bind_error ran]
      refine ⟨file', outcomes, dir, base, synced, .inr ⟨by omega, crashed, ?_⟩⟩
      rw [← List.append_assoc, List.length_append]
      omega
  · obtain ⟨late, _, rfl, total⟩ | ⟨_, crashed, _⟩ := ended
    · rw [Fallible.bind_ok ran]
      have found' : t.1.find t.2.baseIndex = some file' := by
        rw [base, dir]
        exact Keyed.lookup_put found
      have left : t.1.outcomes = crashAfter (i - n) := by
        rw [dir]
      obtain ⟨file'', outcomes', dir', base', synced', ended'⟩ :=
        second t ran file' (i - n) found' left
      refine ⟨file'', outcomes', ?_, base'.trans base, synced'.trans synced, ?_⟩
      · rw [dir', base, dir]
        simp only [Dir.setFile, Keyed.put_put]
      · rw [total, List.append_assoc] at ended'
        refine ended'.imp ?_ ?_
        · rintro ⟨late', success, rest, total'⟩
          exact ⟨by omega, success, by rw [rest, Nat.sub_sub], total'⟩
        · rintro ⟨early, crashed, short⟩
          exact ⟨by omega, crashed, short⟩
    · cases crashed

theorem spends_buffered (bytes : Bytes) (s : Dir × Segment) : Spends (buffered bytes) bytes 0 s := by
  intro file i found crash
  refine ⟨file, crashAfter i, ?_, rfl, rfl, .inl ⟨Nat.zero_le _, rfl, rfl, ?_⟩⟩
  · rw [Dir.setFile, Keyed.put_self found, ← crash]
    rfl
  · exact (List.append_assoc _ _ _).symm

theorem spends_nothing (s : Dir × Segment) : Spends (pure ()) [] 0 s := by
  intro file i found crash
  refine ⟨file, crashAfter i, ?_, rfl, rfl, .inl ⟨Nat.zero_le _, rfl, rfl, ?_⟩⟩
  · rw [Dir.setFile, Keyed.put_self found, ← crash]
    rfl
  · exact (List.append_nil _).symm

theorem write_crash {dir : Dir} {base i : Nat} {file : File} (found : dir.find base = some file)
    (crash : dir.outcomes = crashAfter i) (bytes : Bytes) :
    (i = 0 ∧ dir.write base bytes = (0, .error .crashed, { dir.setFile base file with outcomes := [] })) ∨
      0 < i ∧ dir.write base bytes = (bytes.length, .ok (), { dir.setFile base
        { file with content := file.content ++ bytes } with outcomes := crashAfter (i - 1) }) := by
  cases i with
  | zero =>
    have there : Dir.find base { dir with outcomes := [] } = some file := found
    have crash : dir.outcomes = [.crashed] := crash
    refine .inl ⟨rfl, ?_⟩
    simp only [Dir.write, Dir.accepted, Dir.attempt, crash, there, List.take_zero, List.append_nil]
    rfl
  | succ i =>
    have there : Dir.find base { dir with outcomes := crashAfter i } = some file := found
    rw [Log.crashAfter_succ] at crash
    refine .inr ⟨Nat.succ_pos i, ?_⟩
    simp only [Dir.write, Dir.accepted, Dir.attempt, crash, there, List.take_length]
    rfl

theorem spends_flushBuf (s : Dir × Segment) :
    Spends flushBuf [] (if 0 < s.2.buffer.length then 1 else 0) s := by
  obtain ⟨dir, seg⟩ := s
  by_cases empty : seg.buffer = []
  · have idle : flushBuf (dir, seg) = (.ok (), dir, seg) := if_pos empty
    have none : ¬ 0 < seg.buffer.length := by simp [empty]
    rw [if_neg none]
    intro file i found crash
    have nothing := spends_nothing (dir, seg) file i found crash
    rw [idle]
    exact nothing
  · rw [if_pos (List.length_pos_iff.mpr empty)]
    intro file i found crash
    simp only [flushBuf, if_neg empty]
    rcases write_crash found crash seg.buffer with ⟨rfl, ran⟩ | ⟨some, ran⟩
    · rw [ran]
      refine ⟨file, [], rfl, trivial, rfl, .inr ⟨Nat.one_pos, rfl, ?_⟩⟩
      have := List.length_pos_iff.mpr empty
      simp only [List.length_append, List.length_nil]
      omega
    · rw [ran]
      refine ⟨_, _, rfl, trivial, rfl, .inl ⟨some, rfl, rfl, ?_⟩⟩
      simp

theorem spends_writeFile (some_byte : bytes ≠ []) (flushed : s.2.buffer = []) :
    Spends (writeFile bytes) bytes 1 s := by
  intro file i found crash
  simp only [writeFile]
  rcases write_crash found crash bytes with ⟨rfl, ran⟩ | ⟨some, ran⟩
  · rw [ran]
    refine ⟨file, [], rfl, trivial, rfl, .inr ⟨Nat.one_pos, rfl, ?_⟩⟩
    have := List.length_pos_iff.mpr some_byte
    simp only [List.length_append]
    omega
  · rw [ran]
    refine ⟨_, _, rfl, trivial, rfl, .inl ⟨some, rfl, rfl, ?_⟩⟩
    simp [flushed]

theorem spends_place (room : bufferCapacity ≤ bytes.length → s.2.buffer = []) :
    Spends (if bufferCapacity ≤ bytes.length then writeFile bytes else buffered bytes) bytes
      (if bufferCapacity ≤ bytes.length then 1 else 0) s := by
  split_ifs with large
  · refine spends_writeFile ?_ (room large)
    rintro rfl
    exact absurd large (by decide)
  · exact spends_buffered bytes s

theorem spends_writeAll {file : File} (found : s.1.find s.2.baseIndex = some file) (bytes : Bytes) :
    Spends (writeAll bytes) bytes (writesOf s.2.buffer.length bytes.length) s := by
  obtain ⟨dir, seg⟩ := s
  have found : dir.find seg.baseIndex = some file := found
  have begun : writeAll bytes (dir, seg) =
      (if seg.buffer.length + bytes.length < bufferCapacity then buffered bytes else do
        Fallible.when (bufferCapacity < seg.buffer.length + bytes.length) flushBuf
        if bufferCapacity ≤ bytes.length then writeFile bytes else buffered bytes) (dir, seg) := rfl
  rw [Spends, begun]
  by_cases small : seg.buffer.length + bytes.length < bufferCapacity
  · have none : writesOf seg.buffer.length bytes.length = 0 := by
      rw [writesOf, if_neg (by omega), if_neg (by omega)]
    rw [if_pos small, none]
    exact spends_buffered bytes (dir, seg)
  rw [if_neg small]
  by_cases full : bufferCapacity < seg.buffer.length + bytes.length
  · have count : writesOf seg.buffer.length bytes.length =
        (if 0 < seg.buffer.length then 1 else 0) + if bufferCapacity ≤ bytes.length then 1 else 0 := by
      simp only [writesOf, full, true_and]
    rw [Fallible.when, if_pos full, count]
    exact (spends_flushBuf (dir, seg)).bind fun t ran =>
      spends_place fun _ => flushBuf_empties ran
  · have count : writesOf seg.buffer.length bytes.length =
        if bufferCapacity ≤ bytes.length then 1 else 0 := by
      rw [writesOf, if_neg fun flushes => full flushes.1, Nat.zero_add]
    rw [Fallible.when, if_neg full, count]
    refine spends_place fun large => List.length_eq_zero_iff.mp ?_
    have : seg.buffer.length + bytes.length = bufferCapacity := by omega
    exact (by omega : seg.buffer.length = 0)

theorem place_held {t : Dir × Segment} (ran : (if bufferCapacity ≤ bytes.length then writeFile bytes
      else buffered bytes) s = (.ok (), t)) :
    t.2.buffer.length = if bufferCapacity ≤ bytes.length then s.2.buffer.length
      else s.2.buffer.length + bytes.length := by
  split_ifs at ran ⊢
  · exact congrArg (fun ended => ended.2.2.buffer.length) ran.symm
  · rw [← List.length_append]
    exact congrArg (fun ended => ended.2.2.buffer.length) ran.symm

theorem writeAll_held {t : Dir × Segment} {file : File}
    (found : s.1.find s.2.baseIndex = some file) (ran : writeAll bytes s = (.ok (), t)) :
    t.2.buffer.length = heldAfter s.2.buffer.length bytes.length := by
  obtain ⟨dir, seg⟩ := s
  have found : dir.find seg.baseIndex = some file := found
  simp only [writeAll, Fallible.bind_run, Fallible.get_run] at ran
  by_cases small : seg.buffer.length + bytes.length < bufferCapacity
  · rw [if_pos small] at ran
    cases ran
    have within : ¬ bufferCapacity < seg.buffer.length + bytes.length := by omega
    have short : ¬ bufferCapacity ≤ bytes.length := by omega
    rw [heldAfter, if_neg short, if_neg within]
    exact List.length_append
  rw [if_neg small] at ran
  by_cases full : bufferCapacity < seg.buffer.length + bytes.length
  · rw [Fallible.when, if_pos full] at ran
    obtain ⟨⟨⟩, t', flushed, placed⟩ := Fallible.of_bind_ok ran
    rw [place_held placed, flushBuf_empties flushed, heldAfter, if_pos full, List.length_nil,
      Nat.zero_add]
  · rw [Fallible.when, if_neg full] at ran
    have placed := place_held ran
    rw [placed, heldAfter, if_neg full]
    split_ifs
    · exact (by omega : seg.buffer.length = 0)
    · rfl

section Records
variable [Checksum]

/-- The lengths of what an append writes one after the other. -/
def partSizes (payload : Bytes) : List Nat := (recordParts payload).map List.length

/-- Appending records to a segment and flushing it. -/
def writeOut (records : List Bytes) : Method Unit := do
  Log.appendAll records
  flushBuf

omit [Checksum] in
theorem spends_parts {m : Method Unit} (parts : List Bytes) (sizes : List Nat)
    {s : Dir × Segment} {file : File} (found : s.1.find s.2.baseIndex = some file)
    (rest : ∀ t file, t.1.find t.2.baseIndex = some file →
      Spends m more (writeCount t.2.buffer.length sizes) t) :
    Spends (do writeParts parts; m) (parts.flatten ++ more)
      (writeCount s.2.buffer.length (parts.map List.length ++ sizes)) s := by
  induction parts generalizing s file with
  | nil => exact rest s file found
  | cons part parts ih =>
    have split : (do writeParts (part :: parts); m : Method Unit) =
        (do writeAll part; writeParts parts; m) := Fallible.bind_assoc _ _ _
    rw [split, List.flatten_cons, List.append_assoc, List.map_cons, List.cons_append, writeCount]
    refine (spends_writeAll found part).bind fun t ran => ?_
    obtain ⟨file', _, wrote, _⟩ := writeAll_writes part s file found
    rw [ran] at wrote
    rw [← writeAll_held found ran]
    exact ih (wrote.found found)

theorem spends_writeOut (records : List Bytes) {s : Dir × Segment} {file : File}
    (found : s.1.find s.2.baseIndex = some file) :
    Spends (writeOut records) (stream frame records)
      (writeCount s.2.buffer.length (records.flatMap partSizes)) s := by
  induction records generalizing s file with
  | nil => exact spends_flushBuf s
  | cons payload records ih =>
    have split : writeOut (payload :: records) = (do
        writeParts (recordParts payload)
        (do
          Fallible.modify fun s => (s.1, { s.2 with
            bytes := s.2.bytes + (headerLen + payload.length), count := s.2.count + 1 })
          writeOut records) : Method Unit) := by
      simp only [writeOut, Log.appendAll, append, Fallible.bind_assoc]
    rw [split, Framing.stream_cons, List.flatMap_cons]
    refine spends_parts (recordParts payload) _ found ?_
    rintro ⟨dir, seg⟩ file' found'
    have counted : dir.find { seg with
        bytes := seg.bytes + (headerLen + payload.length), count := seg.count + 1 }.baseIndex =
      some file' := found'
    exact ih (s := (dir, { seg with
      bytes := seg.bytes + (headerLen + payload.length), count := seg.count + 1 })) counted

end Records
end Segment

namespace Log
open Segment (writeOut writeCount partSizes)

theorem onFresh_bind (m m' : Segment.Method Unit) (seg : Segment) :
    (do let fresh ← onFresh m seg; onFresh m' fresh : Method Segment) =
      onFresh (do m; m') seg := by
  funext log
  rcases ran : m (log.dir, seg) with ⟨stop | ⟨⟩, dir, seg'⟩
  · obtain ⟨stop', t, dropped⟩ := seg'.abandon_stops (α := Segment) stop dir
    simp only [Fallible.bind_run, onFresh, ran, dropped]
  · simp only [Fallible.bind_run, onFresh, ran]

theorem onFresh_crashed {m : Segment.Method Unit} {seg seg' : Segment} {log : Log} {dir : Dir}
    (ran : m (log.dir, seg) = (.error .crashed, dir, seg')) :
    onFresh m seg log = (.error .crashed, { log with dir }) := by
  simp only [onFresh, ran, Segment.abandon, if_true]

variable [Checksum] {records : List Bytes}

/-- How many writes it takes to bring records to the file of a new segment. -/
def writes (records : List Bytes) : Nat := writeCount 0 (records.flatMap partSizes)

/-- The file of a new segment when the process ends `i` operations after the file was created. -/
def Filled (records : List Bytes) (i : Nat) (file : File) : Prop :=
  i < writes records ∧ file.content.length < (stream frame records).length ∨
    i = writes records ∧ file = ⟨stream frame records, 0⟩ ∨
      writes records < i ∧ file = ⟨stream frame records, (stream frame records).length⟩

theorem syncFile_crash {dir : Dir} {base i : Nat} (found : dir.find base = some ⟨stream frame records, 0⟩)
    (crash : dir.outcomes = crashAfter i) : ∃ file outcomes,
      (Dir.syncAll base dir).2 = { dir.setFile base file with outcomes } ∧
        (i = 0 ∧ (Dir.syncAll base dir).1 = .error .crashed ∧ file = ⟨stream frame records, 0⟩ ∨
          0 < i ∧ (Dir.syncAll base dir).1 = .ok () ∧
            file = ⟨stream frame records, (stream frame records).length⟩) := by
  cases i with
  | zero =>
    have stopped : Dir.attempt dir = (.error .crashed, { dir with outcomes := [] }) := by
      have crash : dir.outcomes = [.crashed] := crash
      simp only [Dir.attempt, crash]
    rw [Dir.syncAll, Fallible.bind_error (Dir.existing_stopped stopped)]
    refine ⟨_, [], ?_, .inl ⟨rfl, rfl, rfl⟩⟩
    rw [Dir.setFile, Keyed.put_self found]
  | succ i =>
    have ready : dir.Ready (crashAfter i) := by
      rw [crashAfter_succ] at crash
      simp only [Dir.Ready, Dir.attempt, crash]
    rw [Dir.syncAll_run ready found]
    exact ⟨_, _, rfl, .inr ⟨Nat.succ_pos i, rfl, rfl⟩⟩

theorem fillFile_crash {dir : Dir} {base i : Nat} (found : dir.find base = some ⟨[], 0⟩)
    (crash : dir.outcomes = crashAfter i) : ∃ ended file outcomes seg,
      (do
        appendAll records
        Segment.sync : Segment.Method Unit) (dir, ⟨base, [], 0, 0⟩) =
          (ended, { dir.setFile base file with outcomes }, seg) ∧
        (ended = .ok () ∨ ended = .error .crashed) ∧ Filled records i file := by
  have parts : (do appendAll records; Segment.sync : Segment.Method Unit) = (do
      writeOut records
      let s ← Fallible.get
      Segment.onDir (Dir.syncAll s.2.baseIndex)) := by
    simp only [writeOut, Segment.sync, Fallible.bind_assoc]
  rw [parts]
  obtain ⟨file, outcomes, only, at_base, synced, ended⟩ := Segment.spends_writeOut records
    (s := (dir, ⟨base, [], 0, 0⟩)) found ⟨[], 0⟩ i found crash
  rcases ran : writeOut records (dir, ⟨base, [], 0, 0⟩) with ⟨stop | ⟨⟩, dir', seg⟩ <;>
    rw [ran] at only at_base ended
  all_goals
    have only : dir' = { dir.setFile base file with outcomes } := only
    have at_base : seg.baseIndex = base := at_base
  · obtain ⟨_, success, _⟩ | ⟨early, crashed, short⟩ := ended
    · cases success
    · rw [Fallible.bind_error ran, only]
      exact ⟨_, file, outcomes, seg, rfl, .inr crashed, .inl ⟨early, short⟩⟩
  · obtain ⟨late, _, rfl, total⟩ | ⟨_, crashed, _⟩ := ended
    · have flushed : seg.buffer = [] := by
        obtain ⟨⟨⟩, _, _, ended⟩ := Fallible.of_bind_ok ran
        exact Segment.flushBuf_empties ended
      have content : file.content = stream frame records := by
        rw [← List.append_nil file.content, ← flushed]
        exact total
      have whole : file = ⟨stream frame records, 0⟩ := congrArg₂ File.mk content synced
      subst whole
      have found' : dir'.find base = some ⟨stream frame records, 0⟩ := by
        rw [only]
        exact Keyed.lookup_put found
      have next : dir'.outcomes = crashAfter (i - writes records) := by
        rw [only]
        rfl
      obtain ⟨file, outcomes, after, ended⟩ := syncFile_crash found' next
      refine ⟨(Dir.syncAll base dir').1, file, outcomes, seg, ?_, ?_, ?_⟩
      · rw [Fallible.bind_ok ran]
        simp only [Fallible.bind_run, Fallible.get_run, Segment.onDir, Fallible.part_run, at_base]
        rw [after, only]
        simp only [Dir.setFile, Keyed.put_put]
      · exact ended.elim (fun early => .inr early.2.1) fun late => .inl late.2.1
      · have late : writes records ≤ i := late
        refine .inr (ended.imp ?_ ?_)
        · rintro ⟨last, _, rfl⟩
          exact ⟨by omega, rfl⟩
        · rintro ⟨more, _, rfl⟩
          exact ⟨by omega, rfl⟩
    · cases crashed

theorem refill_crash (records : List Bytes) (log : Log) {base i : Nat} {files : List (Nat × File)}
    (there : log.dir.files = files ++ [(base, ⟨[], 0⟩)]) (absent : base ∉ files.map Prod.fst)
    (crash : log.dir.outcomes = crashAfter i) : ∃ file,
      (refill records ⟨base, [], 0, 0⟩ log).2.dir.files = files ++ [(base, file)] ∧
        Filled records i file := by
  have found : log.dir.find base = some ⟨[], 0⟩ := by
    rw [Dir.find, there]
    exact Keyed.lookup_middle absent
  obtain ⟨ended, file, outcomes, seg, ran, possible, filled⟩ := fillFile_crash found crash
  have placed : Keyed.put base file log.dir.files = files ++ [(base, file)] := by
    rw [there]
    exact Keyed.put_middle absent
  refine ⟨file, ?_, filled⟩
  rw [refill, onFresh_bind, ← placed]
  rcases possible with rfl | rfl
  · rw [onFresh_ok ran]
    rfl
  · rw [onFresh_crashed ran]
    rfl

theorem regrow_crash (records : List Bytes) {log : Log} {base i : Nat}
    (absent : base ∉ log.dir.files.map Prod.fst) (crash : log.dir.outcomes = crashAfter i) :
    i = 0 ∧ (regrow base records log).2.dir.files = log.dir.files ∨ ∃ file j, i = j + 1 ∧
      (regrow base records log).2.dir.files = log.dir.files ++ [(base, file)] ∧
      Filled records j file := by
  cases i with
  | zero =>
    have crash : log.dir.outcomes = [.crashed] := crash
    have refused : onDir (Segment.create base) log =
        (.error .crashed, { log with dir := { log.dir with outcomes := [] } }) := by
      simp only [onDir, Fallible.part_run, Segment.create, Dir.createNew, Fallible.bind_run,
        Dir.attempt, crash]
    rw [regrow, Fallible.bind_error refused]
    exact .inl ⟨rfl, rfl⟩
  | succ j =>
    have ready : log.dir.Ready (crashAfter j) := by
      rw [crashAfter_succ] at crash
      simp only [Dir.Ready, Dir.attempt, crash]
    have created : onDir (Segment.create base) log = (.ok ⟨base, [], 0, 0⟩, { log with dir :=
        { log.dir with outcomes := crashAfter j, files := log.dir.files ++ [(base, ⟨[], 0⟩)] } }) := by
      simp only [onDir, Fallible.part_run, Segment.create, Fallible.bind_run,
        Dir.createNew_run ready (Keyed.lookup_absent absent), Fallible.pure_run]
    obtain ⟨file, files, filled⟩ := refill_crash records { log with dir :=
      { log.dir with outcomes := crashAfter j, files := log.dir.files ++ [(base, ⟨[], 0⟩)] } }
      rfl absent rfl
    refine .inr ⟨file, j, rfl, ?_, filled⟩
    rw [regrow, Fallible.bind_ok created, ← files, Fallible.bind_run]
    rcases refill records ⟨base, [], 0, 0⟩ { log with dir := { log.dir with
      outcomes := crashAfter j, files := log.dir.files ++ [(base, ⟨[], 0⟩)] } } with ⟨_ | seg, log'⟩ <;> rfl

end Log
end WalKv
