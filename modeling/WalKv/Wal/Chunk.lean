import WalKv.Wal.Buffering
import WalKv.Wal.Log

/-! A segment together with its file stands for the records that have been
appended to it. What the methods of a segment do to these records. -/
namespace WalKv
open Framing (stream)

variable [Checksum] {dir : Dir} {payload : Bytes} {records : List Bytes}

def Fits (records : List Bytes) : Prop := ∀ payload ∈ records, payload.length ≤ maxRecordLen

omit [Checksum] in
theorem fits_nil : Fits [] := List.forall_mem_nil _

/-- A segment and its file in step with the records they hold. -/
structure Chunk where
  segment : Segment
  file : File
  records : List Bytes
  written : file.content ++ segment.buffer = stream frame records
  bytes : segment.bytes = (stream frame records).length
  count : segment.count = records.length
  durable : file.synced ≤ file.content.length
  fits : Fits records

namespace Chunk

def base (c : Chunk) : Nat := c.segment.baseIndex

def entry (c : Chunk) : Nat × File := (c.base, c.file)

/-- Everything is in the file, on disk. -/
def Synced (c : Chunk) : Prop :=
  c.segment.buffer = [] ∧ c.file.synced = c.file.content.length

theorem Synced.content {c : Chunk} (synced : c.Synced) : c.file.content = stream frame c.records := by
  rw [← c.written, synced.1, List.append_nil]

/-- A segment that holds records, all of them in its file and on disk. -/
def settled (base : Nat) (records : List Bytes) (fits : Fits records) : Chunk where
  segment := ⟨base, [], (stream frame records).length, records.length⟩
  file := ⟨stream frame records, (stream frame records).length⟩
  records
  written := List.append_nil _
  bytes := rfl
  count := rfl
  durable := le_rfl
  fits

theorem settled_synced (base : Nat) (records : List Bytes) (fits : Fits records) :
    (settled base records fits).Synced := ⟨rfl, rfl⟩

/-- More of what was buffered is in the file. -/
structure Spilled (c c' : Chunk) : Prop where
  base : c'.base = c.base
  records : c'.records = c.records
  synced : c'.file.synced = c.file.synced
  longer : c.file.content <+: c'.file.content

theorem Spilled.refl (c : Chunk) : c.Spilled c := ⟨rfl, rfl, rfl, List.prefix_rfl⟩

theorem Spilled.entry_eq {c c' : Chunk} (spilled : c.Spilled c') (synced : c.Synced) :
    c'.entry = c.entry := by
  have content : c'.file.content = c.file.content := by
    refine (spilled.longer.eq_of_length_le ?_).symm
    rw [synced.content, ← spilled.records, ← c'.written, List.length_append]
    exact Nat.le_add_right _ _
  rw [entry, entry, spilled.base]
  exact congrArg _ (congrArg₂ File.mk content spilled.synced)

/-- The same records, of which the file may have taken more. -/
def moved (c : Chunk) {s : Dir × Segment} {file : File}
    (wrote : Segment.Wrote c.file (dir, c.segment) s file []) : Chunk where
  segment := s.2
  file
  records := c.records
  written := by rw [wrote.total, List.append_nil, c.written]
  bytes := by rw [wrote.seg]; exact c.bytes
  count := by rw [wrote.seg]; exact c.count
  durable := by rw [wrote.synced]; exact c.durable.trans wrote.longer.length_le
  fits := c.fits

theorem abandon_spilled {α : Type} (c : Chunk) (found : dir.find c.base = some c.file)
    (stop : Stop) : ∃ (stop' : Stop) (c' : Chunk) (outcomes : List Outcome), c.Spilled c' ∧
      c.segment.abandon (α := α) stop dir =
        (.error stop', { dir.setFile c.base c'.file with outcomes }) := by
  obtain ⟨stop', ⟨dir', seg'⟩, file, ran, wrote⟩ := Segment.abandon_writes (α := α) found stop
  have only : dir' = { dir.setFile c.base file with outcomes := dir'.outcomes } := wrote.dir
  refine ⟨stop', c.moved wrote, dir'.outcomes, ⟨wrote.base, rfl, wrote.synced, wrote.longer⟩, ?_⟩
  exact ran.trans (congrArg (Except.error stop', ·) only)

/-- What a method leaves of a segment's directory and of the segment. -/
structure Left (c : Chunk) (dir : Dir) (records : List Bytes)
    (ended : Except Stop Unit × Dir × Segment) (file : File) : Prop where
  only : ended.2.1 = { dir.setFile c.base file with outcomes := ended.2.1.outcomes }
  base : ended.2.2.baseIndex = c.base
  within : file.content ++ ended.2.2.buffer <+: stream frame records
  done : ended.1 = .ok () →
    ∃ c' : Chunk, c'.segment = ended.2.2 ∧ c'.file = file ∧ c'.records = records ∧
      c'.base = c.base
  healthy : dir.outcomes = [] → ended.1 = .ok () ∧ ended.2.1.outcomes = []

theorem Left.inside {c : Chunk} {ended : Except Stop Unit × Dir × Segment} {file : File}
    (left : c.Left dir records ended file) : file.content <+: stream frame records :=
  (List.prefix_append _ _).trans left.within

/-- One more record, of which the file and the buffer have taken the frame. -/
def appended (c : Chunk) (payload : Bytes) (file : File) (buffer : Bytes)
    (total : file.content ++ buffer = stream frame c.records ++ frame payload)
    (durable : file.synced ≤ file.content.length) (small : payload.length ≤ maxRecordLen) : Chunk where
  segment := { c.segment with
    buffer, bytes := c.segment.bytes + (frame payload).length, count := c.segment.count + 1 }
  file
  records := c.records ++ [payload]
  written := by rw [Framing.stream_concat, total]
  bytes := by rw [Framing.stream_concat, List.length_append, ← c.bytes]
  count := by rw [List.length_append, ← c.count]; rfl
  durable
  fits := List.forall_mem_append.mpr ⟨c.fits, List.forall_mem_singleton.mpr small⟩

/-- `c'` holds one record more than `c`, and no more of it is known to be on disk. -/
structure Grown (payload : Bytes) (c c' : Chunk) : Prop where
  base : c'.base = c.base
  records : c'.records = c.records ++ [payload]
  synced : c'.file.synced = c.file.synced

theorem append_left (c : Chunk) (found : dir.find c.base = some c.file)
    (small : payload.length ≤ maxRecordLen) : ∃ file, file.synced = c.file.synced ∧
      c.Left dir (c.records ++ [payload]) (Segment.append payload (dir, c.segment)) file := by
  obtain ⟨file, part, buffer, outcomes, inside, total, longer, synced, ended⟩ :=
    Segment.append_cases found payload
  rw [c.written] at total
  have durable : file.synced ≤ file.content.length := by
    rw [synced]
    exact c.durable.trans longer.length_le
  have within : file.content ++ buffer <+: stream frame (c.records ++ [payload]) := by
    rw [Framing.stream_concat, total]
    exact (List.prefix_append_right_inj _).mpr inside
  refine ⟨file, synced, ?_⟩
  rcases ended with ⟨rfl, healthy, ran⟩ | ⟨some, _, stop, ran⟩
  · rw [ran]
    exact ⟨rfl, rfl, within,
      fun _ => ⟨c.appended payload file buffer total durable small, rfl, rfl, rfl, rfl⟩,
      fun none => ⟨rfl, healthy none⟩⟩
  · rw [ran]
    exact ⟨rfl, rfl, within, by simp, fun none => absurd none some⟩

theorem Left.found {c : Chunk} {ended : Except Stop Unit × Dir × Segment} {file : File}
    (left : c.Left dir records ended file) (found : dir.find c.base = some c.file) :
    ended.2.1.find c.base = some file := by
  rw [left.only]
  exact Keyed.lookup_put found

theorem appendAll_left (c : Chunk) (found : dir.find c.base = some c.file) (later : List Bytes)
    (fits : Fits later) : ∃ file, file.synced = c.file.synced ∧
      c.Left dir (c.records ++ later) (Log.appendAll later (dir, c.segment)) file := by
  induction later generalizing c dir with
  | nil =>
    refine ⟨c.file, rfl, ?_, rfl, ?_, fun _ => ⟨c, rfl, rfl, (List.append_nil _).symm, rfl⟩,
      fun none => ⟨rfl, none⟩⟩
    · exact (Segment.Wrote.refl found).dir
    · rw [List.append_nil, ← c.written]
      exact List.prefix_rfl
  | cons payload later ih =>
    obtain ⟨file, synced, left⟩ := c.append_left found (fits payload List.mem_cons_self)
    rcases ended : Segment.append payload (dir, c.segment) with ⟨stop | ⟨⟩, t⟩
    · rw [ended] at left
      rw [Log.appendAll, Fallible.bind_error ended]
      refine ⟨file, synced, left.only, left.base, left.within.trans ?_, nofun,
        fun none => nomatch (left.healthy none).1⟩
      simp
    · rw [ended] at left
      rw [Log.appendAll, Fallible.bind_ok ended]
      obtain ⟨c', segment, same, grown, base⟩ := left.done rfl
      have found' := left.found found
      rw [← same, ← base] at found'
      obtain ⟨file', synced', left'⟩ :=
        ih c' found' fun x member => fits x (List.mem_cons_of_mem _ member)
      rw [segment, grown, List.append_assoc] at left'
      refine ⟨file', synced'.trans (same ▸ synced), ?_, left'.base.trans base, left'.within,
        fun success => ?_, fun none => left'.healthy (left.healthy none).2⟩
      · rw [left'.only, base, left.only]
        simp only [Dir.setFile, Keyed.put_put]
      · obtain ⟨c'', rest⟩ := left'.done success
        exact ⟨c'', rest.1, rest.2.1, rest.2.2.1, rest.2.2.2.trans base⟩

theorem sync_cases (c : Chunk) (found : dir.find c.base = some c.file) :
    ∃ (c' : Chunk) (ended : Except Stop Unit) (outcomes : List Outcome),
      c'.base = c.base ∧ c'.records = c.records ∧
      Segment.sync (dir, c.segment) =
        (ended, { dir.setFile c.base c'.file with outcomes }, c'.segment) ∧
      (ended = .ok () → c'.Synced) ∧ (dir.outcomes = [] → ended = .ok () ∧ outcomes = []) := by
  obtain ⟨file, part, wrote, inside, _, healthy⟩ :=
    Segment.flushBuf_writes (dir, c.segment) c.file found
  rw [List.prefix_nil.mp inside] at wrote
  have found' := wrote.found found
  rcases flushed : Segment.flushBuf (dir, c.segment) with ⟨stop | ⟨⟩, dir', seg'⟩ <;>
    rw [flushed] at wrote healthy found'
  all_goals
    have only : dir' = { dir.setFile c.base file with outcomes := dir'.outcomes } := wrote.dir
    have base : seg'.baseIndex = c.base := wrote.base
  · refine ⟨c.moved wrote, .error stop, dir'.outcomes, base, rfl, ?_, by simp, fun none => ?_⟩
    · rw [Segment.sync, Fallible.bind_error flushed]
      exact congrArg (Except.error stop, ·, seg') only
    · cases healthy none
  · have empty : seg'.buffer = [] := Segment.flushBuf_empties flushed
    rw [Segment.sync, Fallible.bind_ok flushed]
    rcases Dir.attempt_cases dir' with ⟨outcomes, ready, none⟩ | ⟨stop, outcomes, stopped, some⟩
    · refine ⟨{ c.moved wrote with
          file := { file with synced := file.content.length }
          written := (c.moved wrote).written
          durable := le_rfl }, .ok (), outcomes, base, rfl, ?_, fun _ => ⟨empty, rfl⟩,
        fun nothing => ⟨rfl, none (wrote.healthy nothing)⟩⟩
      simp only [Fallible.bind_run, Fallible.get_run, Segment.onDir, Fallible.part_run,
        Dir.syncAll_run ready found', moved]
      rw [base, only]
      simp only [Dir.setFile, Keyed.put_put]
    · refine ⟨c.moved wrote, .error stop, outcomes, base, rfl, ?_, by simp,
        fun nothing => absurd (wrote.healthy nothing) some⟩
      simp only [Fallible.bind_run, Fallible.get_run, Segment.onDir, Fallible.part_run, Dir.syncAll,
        Dir.existing_stopped stopped, moved]
      rw [only]

theorem sync_left (c : Chunk) (found : dir.find c.base = some c.file) : ∃ file,
    c.Left dir c.records (Segment.sync (dir, c.segment)) file ∧
      ((Segment.sync (dir, c.segment)).1 = .ok () →
        (Segment.sync (dir, c.segment)).2.2.buffer = [] ∧ file.synced = file.content.length) := by
  obtain ⟨c', ended, outcomes, base, records, ran, synced, healthy⟩ := c.sync_cases found
  have within : c'.file.content ++ c'.segment.buffer <+: stream frame c.records := by
    rw [← records, ← c'.written]
  rw [ran]
  exact ⟨c'.file, ⟨rfl, base, within, fun _ => ⟨c', rfl, rfl, records, base⟩, healthy⟩, synced⟩

end Chunk
end WalKv
