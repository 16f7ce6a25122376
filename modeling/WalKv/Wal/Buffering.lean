import WalKv.Wal.Segment

/-! What is written to a segment reaches its file in order: file and buffer
together grow by a front part of it, and by all of it when the write succeeds. -/
namespace WalKv
open LittleEndian

namespace Segment

variable {s s' : Dir × Segment} {file file' : File} {bytes more : Bytes}

/-- From `s` to `s'` the segment's file and buffer have taken in `bytes`. -/
structure Wrote (file : File) (s s' : Dir × Segment) (file' : File) (bytes : Bytes) : Prop where
  dir : s'.1 = { s.1.setFile s.2.baseIndex file' with outcomes := s'.1.outcomes }
  seg : s'.2 = { s.2 with buffer := s'.2.buffer }
  total : file'.content ++ s'.2.buffer = file.content ++ s.2.buffer ++ bytes
  longer : file.content <+: file'.content
  synced : file'.synced = file.synced
  healthy : s.1.outcomes = [] → s'.1.outcomes = []

/-- Run from `s`, the method writes `bytes`, or a front part of them when it stops
early. -/
def WritesFrom (s : Dir × Segment) (file : File) (bytes : Bytes) (m : Method Unit) : Prop :=
  ∃ file' part, Wrote file s (m s).2 file' part ∧ part <+: bytes ∧
    ((m s).1 = .ok () → part = bytes) ∧ (s.1.outcomes = [] → (m s).1 = .ok ())

def Writes (bytes : Bytes) (m : Method Unit) : Prop :=
  ∀ s file, s.1.find s.2.baseIndex = some file → WritesFrom s file bytes m

theorem Wrote.refl (found : s.1.find s.2.baseIndex = some file) : Wrote file s s file [] where
  dir := by rw [Dir.setFile, Keyed.put_self found]
  seg := rfl
  total := (List.append_nil _).symm
  longer := List.prefix_rfl
  synced := rfl
  healthy := id

theorem Wrote.base (wrote : Wrote file s s' file' bytes) : s'.2.baseIndex = s.2.baseIndex := by
  rw [wrote.seg]

theorem Wrote.found (wrote : Wrote file s s' file' bytes)
    (found : s.1.find s.2.baseIndex = some file) : s'.1.find s'.2.baseIndex = some file' := by
  rw [wrote.base, wrote.dir]
  exact Keyed.lookup_put found

theorem Wrote.trans {s'' : Dir × Segment} {file'' : File} (first : Wrote file s s' file' bytes)
    (second : Wrote file' s' s'' file'' more) : Wrote file s s'' file'' (bytes ++ more) where
  dir := by
    rw [second.dir, first.base, first.dir]
    simp only [Dir.setFile, Keyed.put_put]
  seg := by
    rw [second.seg, first.seg]
  total := by
    rw [second.total, first.total, List.append_assoc]
  longer := first.longer.trans second.longer
  synced := second.synced.trans first.synced
  healthy none := second.healthy (first.healthy none)

/-- Behind a method that has succeeded, its bytes are written in front of all others. -/
theorem WritesFrom.bind_ok {m m' : Method Unit} (first : WritesFrom s file bytes m)
    (ended : m s = (.ok (), s')) (found : s.1.find s.2.baseIndex = some file)
    (second : ∀ file', s'.1.find s'.2.baseIndex = some file' → WritesFrom s' file' more m') :
    ∃ file' part, Wrote file s ((do m; m') s).2 file' (bytes ++ part) ∧ part <+: more ∧
      (((do m; m') s).1 = .ok () → part = more) ∧ (s.1.outcomes = [] → ((do m; m') s).1 = .ok ()) := by
  obtain ⟨file', part, wrote, _, whole, _⟩ := first
  rw [ended] at wrote whole
  obtain ⟨file'', part', wrote', inside', whole', healthy'⟩ := second file' (wrote.found found)
  rw [whole rfl] at wrote
  rw [Fallible.bind_ok ended]
  exact ⟨file'', part', wrote.trans wrote', inside', whole', fun none => healthy' (wrote.healthy none)⟩

theorem WritesFrom.bind {m m' : Method Unit} (first : WritesFrom s file bytes m)
    (found : s.1.find s.2.baseIndex = some file)
    (second : ∀ t file', m s = (.ok (), t) → t.1.find t.2.baseIndex = some file' →
      WritesFrom t file' more m') : WritesFrom s file (bytes ++ more) (do m; m') := by
  rcases ended : m s with ⟨_ | ⟨⟩, t⟩
  · obtain ⟨file', part, wrote, inside, whole, healthy⟩ := first
    rw [ended] at wrote whole healthy
    rw [WritesFrom, Fallible.bind_error ended]
    refine ⟨file', part, wrote, inside.trans (List.prefix_append _ _), fun success => ?_,
      fun none => ?_⟩
    · cases success
    · cases healthy none
  · obtain ⟨file', part, wrote, inside, whole, healthy⟩ := first.bind_ok ended found
      fun file' found' => second t file' ended found'
    refine ⟨file', bytes ++ part, wrote, ?_, fun success => ?_, healthy⟩
    · exact (List.prefix_append_right_inj _).mpr inside
    · rw [whole success]

theorem Writes.bind {m m' : Method Unit} (first : Writes bytes m) (second : Writes more m') :
    Writes (bytes ++ more) (do m; m') := fun s file found =>
  (first s file found).bind found fun t file' _ found' => second t file' found'

theorem Writes.pure : Writes [] (pure ()) := fun _ file found =>
  ⟨file, [], .refl found, List.prefix_rfl, fun _ => rfl, fun _ => rfl⟩

theorem accepted_all {dir : Dir} (ended : (Dir.attempt dir).1 = .ok ()) (length : Nat) :
    dir.accepted length = length := by
  unfold Dir.attempt at ended
  unfold Dir.accepted
  split at ended <;> rename_i next <;> simp_all

/-- A write takes effect up to where it ends. -/
theorem write_run {dir : Dir} {base : Nat} (found : dir.find base = some file) (bytes : Bytes) :
    ∃ written ended outcomes, dir.write base bytes = (written, ended, { dir.setFile base
        { file with content := file.content ++ bytes.take written } with outcomes }) ∧
      (ended = .ok () → written = bytes.length) ∧
      (dir.outcomes = [] → ended = .ok () ∧ outcomes = []) := by
  have found : Dir.find base (Dir.attempt dir).2 = some file := by
    rw [Dir.attempt_only]
    exact found
  refine ⟨dir.accepted bytes.length, (Dir.attempt dir).1, (Dir.attempt dir).2.outcomes, ?_,
    fun success => ?_, fun none => ?_⟩
  · simp only [Dir.write, found]
    rw [Dir.attempt_only]
    rfl
  · exact accepted_all success _
  · simp [Dir.attempt, none]

theorem flushBuf_writes : Writes [] flushBuf := by
  rintro ⟨dir, seg⟩ file found
  by_cases empty : seg.buffer = []
  · simp only [WritesFrom, flushBuf, if_pos empty]
    exact ⟨file, [], .refl found, List.prefix_rfl, fun _ => rfl, fun _ => trivial⟩
  obtain ⟨written, ended, outcomes, ran, whole, healthy⟩ := write_run found seg.buffer
  simp only [WritesFrom, flushBuf, if_neg empty, ran]
  refine ⟨_, [], ⟨rfl, rfl, ?_, List.prefix_append _ _, rfl, fun none => (healthy none).2⟩,
    List.prefix_rfl, fun _ => rfl, fun none => (healthy none).1⟩
  simp [List.append_assoc]

theorem flushBuf_empties {s t : Dir × Segment} (ran : flushBuf s = (.ok (), t)) :
    t.2.buffer = [] := by
  obtain ⟨dir, seg⟩ := s
  by_cases empty : seg.buffer = []
  · simp only [flushBuf, if_pos empty] at ran
    cases ran
    exact empty
  · simp only [flushBuf, if_neg empty, Dir.write, Prod.mk.injEq] at ran
    obtain ⟨ended, rfl⟩ := ran
    exact List.drop_of_length_le (Nat.le_of_eq (accepted_all ended _).symm)

theorem abandon_stops {α : Type} (seg : Segment) (stop : Stop) (dir : Dir) :
    ∃ stop' t, seg.abandon (α := α) stop dir = (.error stop', t) := by
  unfold abandon
  split_ifs
  · exact ⟨_, _, rfl⟩
  · exact ⟨_, _, rfl⟩

theorem abandon_writes {α : Type} {dir : Dir} {seg : Segment}
    (found : dir.find seg.baseIndex = some file) (stop : Stop) :
    ∃ stop' t file', seg.abandon (α := α) stop dir = (.error stop', t.1) ∧
      Wrote file (dir, seg) t file' [] := by
  obtain ⟨file', part, wrote, inside, _, _⟩ := flushBuf_writes (dir, seg) file found
  rw [List.prefix_nil.mp inside] at wrote
  unfold abandon
  split_ifs
  · exact ⟨.crashed, (dir, seg), file, rfl, .refl found⟩
  · exact ⟨_, _, file', rfl, wrote⟩

theorem buffered_writes (bytes : Bytes) : Writes bytes (buffered bytes) := by
  rintro ⟨dir, seg⟩ file found
  refine ⟨file, bytes, ⟨?_, rfl, ?_, List.prefix_rfl, rfl, id⟩, List.prefix_rfl, fun _ => rfl,
    fun _ => rfl⟩
  · exact (Wrote.refl found).dir
  · simp [buffered, List.append_assoc]

/-- Past an empty buffer bytes go to the file. -/
theorem writeFile_writes (found : s.1.find s.2.baseIndex = some file)
    (empty : s.2.buffer = []) (bytes : Bytes) : WritesFrom s file bytes (writeFile bytes) := by
  obtain ⟨dir, seg⟩ := s
  obtain ⟨written, ended, outcomes, ran, whole, healthy⟩ := write_run found bytes
  have empty : seg.buffer = [] := empty
  simp only [WritesFrom, writeFile, ran]
  refine ⟨_, bytes.take written, ⟨rfl, rfl, ?_, List.prefix_append _ _, rfl,
    fun none => (healthy none).2⟩, List.take_prefix _ _, fun success => ?_,
    fun none => (healthy none).1⟩
  · simp [empty]
  · rw [whole success, List.take_length]

theorem writeAll_writes (bytes : Bytes) : Writes bytes (writeAll bytes) := by
  rintro ⟨dir, seg⟩ file found
  have behind {s : Dir × Segment} {file : File} (found : s.1.find s.2.baseIndex = some file)
      (room : bufferCapacity ≤ bytes.length → s.2.buffer = []) : WritesFrom s file bytes
        (if bufferCapacity ≤ bytes.length then writeFile bytes else buffered bytes) := by
    split_ifs with large
    · exact writeFile_writes found (room large) bytes
    · exact buffered_writes bytes s file found
  simp only [WritesFrom, writeAll, Fallible.bind_run, Fallible.get_run]
  by_cases small : seg.buffer.length + bytes.length < bufferCapacity
  · rw [if_pos small]
    exact buffered_writes bytes _ file found
  rw [if_neg small]
  by_cases full : bufferCapacity < seg.buffer.length + bytes.length
  · simp only [Fallible.when, if_pos full]
    exact (flushBuf_writes _ file found).bind found fun t file' ran found' =>
      behind found' fun _ => flushBuf_empties ran
  · simp only [Fallible.when, if_neg full]
    refine behind found fun large => List.length_eq_zero_iff.mp ?_
    show seg.buffer.length = 0
    omega

theorem flushBuf_fails_iff {dir : Dir} {seg : Segment} (some_byte : seg.buffer ≠ []) :
    (flushBuf (dir, seg)).1 ≠ .ok () ↔ dir.Fails := by
  simp only [flushBuf, if_neg some_byte, Dir.write]
  exact Dir.fails_iff.symm

/-- A small write goes to the buffer. Where it has no room and cannot be flushed, nothing is
taken. -/
theorem writeAll_small {dir : Dir} {seg : Segment} (found : dir.find seg.baseIndex = some file)
    (small : bytes.length < bufferCapacity) :
    (bufferCapacity < seg.buffer.length + bytes.length ∧ dir.Fails) ∧ (∃ stop t file',
        writeAll bytes (dir, seg) = (.error stop, t) ∧ Wrote file (dir, seg) t file' []) ∨
      ¬ (bufferCapacity < seg.buffer.length + bytes.length ∧ dir.Fails) ∧
        ∃ t, writeAll bytes (dir, seg) = (.ok (), t) := by
  have takes (t : Dir × Segment) : (if bufferCapacity ≤ bytes.length then writeFile bytes
      else buffered bytes) t = (.ok (), t.1, { t.2 with buffer := t.2.buffer ++ bytes }) := by
    rw [if_neg (Nat.not_le.mpr small)]
    rfl
  simp only [writeAll, Fallible.bind_run, Fallible.get_run]
  by_cases full : bufferCapacity < seg.buffer.length + bytes.length
  · have some_byte : seg.buffer ≠ [] := by
      rintro empty
      rw [empty, List.length_nil, Nat.zero_add] at full
      exact Nat.lt_asymm small full
    have fails : (flushBuf (dir, seg)).1 ≠ .ok () ↔ dir.Fails := flushBuf_fails_iff some_byte
    obtain ⟨file', part, wrote, inside, _, _⟩ := flushBuf_writes (dir, seg) file found
    rw [List.prefix_nil.mp inside] at wrote
    rw [if_neg (Nat.not_lt.mpr (Nat.le_of_lt full)), Fallible.when, if_pos full]
    rcases flushed : flushBuf (dir, seg) with ⟨stop | ⟨⟩, t⟩ <;> rw [flushed] at wrote fails
    · rw [Fallible.bind_error flushed]
      exact .inl ⟨⟨full, fails.mp (by simp)⟩, stop, t, file', rfl, wrote⟩
    · rw [Fallible.bind_ok flushed, takes]
      exact .inr ⟨fun refused => fails.mpr refused.2 rfl, _, rfl⟩
  · right
    refine ⟨fun refused => full refused.1, ?_⟩
    by_cases room : seg.buffer.length + bytes.length < bufferCapacity
    · rw [if_pos room]
      exact ⟨_, rfl⟩
    · rw [if_neg room, Fallible.when, if_neg full]
      exact ⟨_, takes _⟩

/-- The writer has no room for the checksum of a record and cannot make any. -/
def Refuses (dir : Dir) (seg : Segment) : Prop :=
  bufferCapacity < seg.buffer.length + 4 ∧ dir.Fails

instance (dir : Dir) (seg : Segment) : Decidable (Refuses dir seg) :=
  inferInstanceAs (Decidable (_ ∧ _))

theorem writeParts_writes (parts : List Bytes) : Writes parts.flatten (writeParts parts) := by
  induction parts with
  | nil => exact .pure
  | cons part parts ih => exact (writeAll_writes part).bind ih

/-- File and buffer take in a front part of the record's frame, and all of it if the append
succeeds. Only then the segment counts it. Nothing is taken in where the writer refuses. -/
theorem append_cases [Checksum] {dir : Dir} {seg : Segment}
    (found : dir.find seg.baseIndex = some file) (payload : Bytes) :
    ∃ file' part buffer outcomes, part <+: frame payload ∧
      file'.content ++ buffer = file.content ++ seg.buffer ++ part ∧
      file.content <+: file'.content ∧ file'.synced = file.synced ∧
      (part = frame payload ∧ (dir.outcomes = [] → outcomes = []) ∧
          append payload (dir, seg) = (.ok (), { dir.setFile seg.baseIndex file' with outcomes },
            { seg with
              buffer, bytes := seg.bytes + (frame payload).length, count := seg.count + 1 }) ∨
        dir.outcomes ≠ [] ∧ (part = [] ↔ Refuses dir seg) ∧ ∃ stop, append payload (dir, seg) =
          (.error stop, { dir.setFile seg.baseIndex file' with outcomes }, { seg with buffer })) := by
  have length := encode_length 4 (Checksum.crc (encode 4 payload.length ++ payload)).toNat
  have small : (encode 4 (Checksum.crc (encode 4 payload.length ++ payload)).toNat).length <
      bufferCapacity := by
    rw [length]
    decide
  rcases writeAll_small found small with
    ⟨refused, stop, ⟨dir', seg'⟩, file', stopped, wrote⟩ | ⟨taken, t, ran⟩
  · have only : dir' = { dir.setFile seg.baseIndex file' with outcomes := dir'.outcomes } :=
      wrote.dir
    have same : seg' = { seg with buffer := seg'.buffer } := wrote.seg
    rw [length] at refused
    refine ⟨file', [], seg'.buffer, dir'.outcomes, List.nil_prefix, wrote.total, wrote.longer,
      wrote.synced, .inr ⟨refused.2.unhealthy, iff_of_true rfl refused, stop, ?_⟩⟩
    rw [← only, ← same, append, recordParts, writeParts]
    exact Fallible.bind_error (Fallible.bind_error stopped)
  rw [length] at taken
  obtain ⟨file', part, wrote, inside, whole, healthy⟩ := (writeAll_writes _ (dir, seg) file found).bind_ok
    ran found fun file' found' => writeParts_writes [encode 4 payload.length, payload] t file' found'
  have inside : _ <+: frame payload := (List.prefix_append_right_inj _).mpr inside
  rcases ended : writeParts (recordParts payload) (dir, seg) with ⟨stop | ⟨⟩, dir', seg'⟩
  all_goals
    have ended' := ended
    rw [recordParts, writeParts] at ended'
    rw [ended'] at wrote whole healthy
    have only : dir' = { dir.setFile seg.baseIndex file' with outcomes := dir'.outcomes } :=
      wrote.dir
    have same : seg' = { seg with buffer := seg'.buffer } := wrote.seg
  · refine ⟨file', _, seg'.buffer, dir'.outcomes, inside, wrote.total, wrote.longer,
      wrote.synced, .inr ⟨fun none => ?_, iff_of_false (fun none => ?_) taken, stop, ?_⟩⟩
    · cases healthy none
    · have short := congrArg List.length none
      rw [List.length_append, length] at short
      simp at short
    · rw [append, Fallible.bind_error ended, ← only, ← same]
  · refine ⟨file', _, seg'.buffer, dir'.outcomes, inside, wrote.total, wrote.longer,
      wrote.synced, .inl ⟨congrArg _ (whole rfl), wrote.healthy, ?_⟩⟩
    rw [append, Fallible.bind_ok ended, ← only, Fallible.modify_run, frame_length]
    simp only
    rw [same]

end Segment
end WalKv
