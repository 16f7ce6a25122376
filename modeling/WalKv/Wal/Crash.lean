import WalKv.Wal.Faults
import Mathlib.Data.List.DropRight

/-! Crashes of a log that is appended to and synced. Each file keeps some front
part of what was appended to it, with all that was synced. The log then reopens
with a front part of its records, exactly if no file but the last lost a byte. -/
namespace WalKv
open Framing (stream whole)

namespace Log

/-- What is still buffered for a segment. -/
def bufferOf (log : Log) (base : Nat) : Bytes :=
  ((log.segments.find? (·.baseIndex = base)).map Segment.buffer).getD []

/-- All that was appended to a file, and how many bytes of it survive. -/
def appended (log : Log) (entry : Nat × File) : Bytes :=
  entry.2.content ++ log.bufferOf entry.1

def survives (kept : Nat → Nat) (entry : Nat × File) : Nat := max entry.2.synced (kept entry.1)

/-- The directory after a crash in which the file of segment `base` keeps `kept base`
bytes, or more if more is synced. -/
def crash (kept : Nat → Nat) (log : Log) : Dir :=
  { log.dir with
    outcomes := []
    files := log.dir.files.map fun entry =>
      let bytes := (log.appended entry).take (survives kept entry)
      (entry.1, ⟨bytes, bytes.length⟩) }

end Log

section Records
variable [Checksum] {log : Log} {lead : List Chunk} {active : Chunk} {kept : Nat → Nat}

namespace Chunk

/-- What is left of a segment of which `n` bytes survive. -/
def remnant (c : Chunk) (n : Nat) : Remnant where
  base := c.base
  records := c.records.take (whole frame c.records n)
  tail := ((stream frame c.records).take n).drop
    (stream frame (c.records.take (whole frame c.records n))).length
  synced := ((stream frame c.records).take n).length
  fits payload inside := c.fits payload (List.mem_of_mem_take inside)
  torn := by
    obtain ⟨part, split, torn⟩ := Framing.take_stream frame c.records n
    rw [split, List.drop_left]
    exact torn.imp_right fun ⟨payload, inside, torn⟩ => ⟨payload, c.fits payload inside, torn⟩

theorem remnant_entry (c : Chunk) (n : Nat) : (c.remnant n).entry =
    (c.base, ⟨(stream frame c.records).take n, ((stream frame c.records).take n).length⟩) := by
  obtain ⟨part, split, _⟩ := Framing.take_stream frame c.records n
  simp only [Remnant.entry, remnant]
  rw [split, List.drop_left]

theorem remnant_le (c : Chunk) (n : Nat) : (c.remnant n).records.length ≤ c.records.length :=
  (List.take_prefix _ _).length_le

theorem remnant_whole (c : Chunk) (n : Nat) :
    (c.remnant n).records = c.records ↔ (stream frame c.records).length ≤ n := by
  rw [← Framing.whole_eq_length_iff, remnant, List.take_eq_self_iff]
  have := Framing.whole_le frame c.records n
  omega

theorem remnants_whole {chunks : List Chunk} {n : Chunk → Nat}
    (total : (flat chunks).length ≤ (chunks.flatMap fun c => (c.remnant (n c)).records).length) :
    ∀ c ∈ chunks, (c.remnant (n c)).records = c.records := by
  have bound (chunks : List Chunk) :
      (chunks.flatMap fun c => (c.remnant (n c)).records).length ≤ (flat chunks).length := by
    induction chunks with
    | nil => exact le_rfl
    | cons c chunks ih =>
      have := c.remnant_le (n c)
      rw [List.flatMap_cons, flat_cons, List.length_append, List.length_append]
      omega
  induction chunks with
  | nil => nofun
  | cons c chunks ih =>
    have here := c.remnant_le (n c)
    have rest := bound chunks
    rw [List.flatMap_cons, flat_cons, List.length_append, List.length_append] at total
    intro x member
    rcases List.mem_cons.mp member with rfl | later
    · have all : x.records.length ≤ (x.remnant (n x)).records.length := by omega
      exact (List.take_prefix _ _).eq_of_length_le all
    · exact ih (by omega) x later

end Chunk

namespace Log.Laid

omit [Checksum] in
theorem find_segment {chunks : List Segment} (distinct : (chunks.map Segment.baseIndex).Nodup)
    {seg : Segment} (member : seg ∈ chunks) :
    chunks.find? (·.baseIndex = seg.baseIndex) = some seg := by
  induction chunks with
  | nil => cases member
  | cons head chunks ih =>
    rw [List.map_cons, List.nodup_cons] at distinct
    rcases List.mem_cons.mp member with rfl | later
    · simp
    · have other : head.baseIndex ≠ seg.baseIndex := fun same =>
        distinct.1 (same ▸ List.mem_map_of_mem later)
      rw [List.find?_cons_of_neg (by simpa using other), ih distinct.2 later]

theorem buffer (laid : log.Laid lead active) {c : Chunk} (member : c ∈ lead ++ [active]) :
    log.bufferOf c.base = c.segment.buffer := by
  have distinct : (log.segments.map Segment.baseIndex).Nodup := by
    have distinct := laid.distinct
    rw [laid.bases] at distinct
    rw [laid.segments, List.map_map]
    exact distinct
  have found : log.segments.find? (·.baseIndex = c.base) = some c.segment :=
    find_segment distinct (laid.segments ▸ List.mem_map_of_mem member)
  rw [bufferOf, found]
  rfl

theorem appended (laid : log.Laid lead active) {c : Chunk} (member : c ∈ lead ++ [active]) :
    log.appended c.entry = stream frame c.records := by
  rw [Log.appended, Chunk.entry, laid.buffer member]
  exact c.written

theorem crash_files (laid : log.Laid lead active) : (log.crash kept).files =
    ((lead ++ [active]).map fun c => c.remnant (survives kept c.entry)).map Remnant.entry := by
  simp only [Log.crash, laid.files, List.map_map]
  refine List.map_congr_left fun c member => ?_
  rw [Function.comp_apply, Function.comp_apply, Chunk.remnant_entry, laid.appended member]
  rfl

theorem reopen (laid : log.Laid lead active) (maxSegmentBytes : Nat) (kept : Nat → Nat) :
    ∃ log', (Log.open maxSegmentBytes (log.crash kept)).1 = .ok log' ∧
      log'.firstIndex = log.firstIndex ∧
      log'.lastIndex = active.base +
        (active.remnant (survives kept active.entry)).records.length - 1 ∧
      (readAll log').1 = .ok ((lead ++ [active]).flatMap fun c =>
        WalKv.number c.base (c.remnant (survives kept c.entry)).records) := by
  obtain ⟨c, starts, first⟩ := laid.starts
  have ordered : (((lead ++ [active]).map fun c =>
      c.remnant (survives kept c.entry)).map Remnant.base).Pairwise (· < ·) := by
    rw [List.map_map]
    exact laid.contiguous.ordered laid.full
  have starts : ((lead ++ [active]).map fun c => c.remnant (survives kept c.entry)).head? =
      some (c.remnant (survives kept c.entry)) := by
    rw [List.head?_map, starts]
    rfl
  have ends : ((lead ++ [active]).map fun c => c.remnant (survives kept c.entry)).getLast? =
      some (active.remnant (survives kept active.entry)) := by
    simp
  have healthy : (log.crash kept).outcomes = [] := rfl
  have read := readAll_reopened maxSegmentBytes healthy ordered
    (c.remnant (survives kept c.entry)) (active.remnant (survives kept active.entry))
  rw [List.flatMap_map] at read
  exact ⟨_, open_run maxSegmentBytes healthy laid.named laid.crash_files ordered starts ends, first,
    rfl, read⟩

theorem kept_whole (laid : log.Laid lead active) :
    (∀ entry ∈ log.dir.files.dropLast, (log.appended entry).length ≤ survives kept entry) ↔
      ∀ c ∈ lead, (c.remnant (survives kept c.entry)).records = c.records := by
  have older : log.dir.files.dropLast = lead.map Chunk.entry := by
    rw [laid.files, List.map_append]
    exact List.dropLast_concat
  rw [older, List.forall_mem_map]
  refine forall₂_congr fun c member => ?_
  rw [laid.appended (List.mem_append_left _ member), Chunk.remnant_whole]

end Log.Laid

namespace Log

inductive Call where
  | append (payload : Bytes)
  | sync
  deriving DecidableEq, Repr

def perform : Call → Method Unit
  | .append payload => do
    let _ ← append payload
  | .sync => sync

def performAll : List Call → Method Unit
  | [] => pure ()
  | call :: calls => do
    perform call
    performAll calls

def Call.payload? : Call → Option Bytes
  | .append payload => some payload
  | .sync => none

def payloads (calls : List Call) : List Bytes := calls.filterMap Call.payload?

/-- The calls up to the last sync. -/
def covered (calls : List Call) : List Call := calls.rdropWhile (· ≠ .sync)

omit [Checksum] in
theorem covered_le (calls : List Call) :
    (payloads (covered calls)).length ≤ (payloads calls).length :=
  ((List.rdropWhile_prefix _ calls).filterMap _).length_le

/-- The log stands where calls on an empty directory have brought it. What the
last sync covered is durable in the active segment. -/
structure Ran (calls : List Call) (log : Log) (lead : List Chunk) (active : Chunk) : Prop where
  laid : log.Laid lead active
  healthy : log.dir.outcomes = []
  first : log.firstIndex = 1
  records : flat (lead ++ [active]) = payloads calls
  durable : (stream frame (active.records.take
    ((payloads (covered calls)).length + 1 - active.base))).length ≤ active.file.synced

theorem ran_empty (path : String) (maxSegmentBytes : Nat) : ∃ log,
    (Log.open maxSegmentBytes (Dir.empty path)).1 = .ok log ∧ Ran [] log [] (.settled 1 [] fits_nil) := by
  obtain ⟨log, opened, laid, healthy, first⟩ := open_empty path maxSegmentBytes
  exact ⟨log, opened, laid, healthy, first, rfl, Nat.zero_le _⟩

theorem Ran.step {calls : List Call} (ran : Ran calls log lead active) {call : Call}
    (small : ∀ payload ∈ call.payload?, payload.length ≤ maxRecordLen) : ∃ log' lead' active',
      perform call log = (.ok (), log') ∧ Ran (calls ++ [call]) log' lead' active' := by
  have total := congrArg List.length ran.records
  have base := ran.laid.contiguous.active_base
  have last := ran.laid.last
  have covered_le := covered_le calls
  rw [ran.first] at base last
  simp only [flat_append, flat_cons, flat_nil, List.append_nil, List.length_append] at total last
  cases call with
  | append payload =>
    obtain ⟨log', lead', active', appended, laid, healthy, first, grown, place⟩ :=
      ran.laid.append ran.healthy (small payload rfl)
    refine ⟨log', lead', active', ?_, laid, healthy, first.trans ran.first, ?_, ?_⟩
    · simp only [perform, Fallible.bind_run, appended, Fallible.pure_run]
    · rw [grown, ran.records, payloads, payloads, List.filterMap_append]
      rfl
    · have same : covered (calls ++ [.append payload]) = covered calls := by
        simp [covered]
      rw [same]
      rcases place with ⟨_, base', records, synced⟩ | ⟨_, base'⟩
      · rw [base', records, synced, List.take_append_of_le_length (by omega)]
        exact ran.durable
      · rw [show (payloads (covered calls)).length + 1 - active'.base = 0 by omega]
        exact Nat.zero_le _
  | sync =>
    refine ⟨_, _, _, ran.laid.sync_run ran.healthy, ran.laid.sync, ran.healthy, ran.first, ?_, ?_⟩
    · have same := flat_flushed (lead ++ [active])
      rw [List.map_append, ran.records] at same
      rw [payloads, List.filterMap_append]
      exact same.trans (List.append_nil _).symm
    · refine List.IsPrefix.length_le ?_
      exact Framing.stream_prefix (List.take_prefix _ _)

theorem Ran.run {calls : List Call} (ran : Ran calls log lead active) (later : List Call)
    (fits : Fits (payloads later)) : ∃ log' lead' active',
      performAll later log = (.ok (), log') ∧ Ran (calls ++ later) log' lead' active' := by
  induction later generalizing calls log lead active with
  | nil => exact ⟨log, lead, active, rfl, by rwa [List.append_nil]⟩
  | cons call later ih =>
    have small : ∀ payload ∈ call.payload?, payload.length ≤ maxRecordLen := by
      intro payload found
      exact fits payload (List.mem_filterMap.mpr ⟨call, List.mem_cons_self, found⟩)
    have rest : Fits (payloads later) := by
      intro payload inside
      obtain ⟨x, member, found⟩ := List.mem_filterMap.mp inside
      exact fits payload (List.mem_filterMap.mpr ⟨x, List.mem_cons_of_mem _ member, found⟩)
    obtain ⟨log', lead', active', performed, ran'⟩ := ran.step small
    obtain ⟨log'', lead'', active'', performed', ran''⟩ := ih ran' rest
    refine ⟨log'', lead'', active'', ?_, ?_⟩
    · rw [performAll, Fallible.bind_ok performed, performed']
    · rwa [List.append_assoc, List.singleton_append] at ran''

theorem Ran.durable_kept {calls : List Call} (ran : Ran calls log lead active) (kept : Nat → Nat) :
    (payloads (covered calls)).length ≤
      (flat lead).length + (active.remnant (survives kept active.entry)).records.length := by
  have total := congrArg List.length ran.records
  have base := ran.laid.contiguous.active_base
  have covered_le := covered_le calls
  rw [ran.first] at base
  simp only [flat_append, flat_cons, flat_nil, List.append_nil, List.length_append] at total
  have here : (payloads (covered calls)).length + 1 - active.base ≤
      whole frame active.records (survives kept active.entry) := by
    refine (Framing.le_whole_iff (by omega)).mpr ?_
    exact ran.durable.trans (Nat.le_max_left _ _)
  have bound := Framing.whole_le frame active.records (survives kept active.entry)
  simp only [Chunk.remnant, List.length_take]
  omega

/-- Reopening gives the records `1..=k` of those appended, with all that the last
sync covered. -/
def Recovered (calls : List Call) (reopened : Except Stop Log) : Prop :=
  ∃ log k, reopened = .ok log ∧ (payloads (covered calls)).length ≤ k ∧
    k ≤ (payloads calls).length ∧ log.firstIndex = 1 ∧ log.lastIndex = k ∧
    (readAll log).1 = .ok (number 1 ((payloads calls).take k))

/-- Whatever was appended and synced, a crash leaves a front part of the records
exactly if every segment file but the newest keeps all that was appended to it. -/
theorem recovered_iff (path : String) (maxSegmentBytes : Nat) (calls : List Call)
    (fits : Fits (payloads calls)) (kept : Nat → Nat) : ∃ start log,
      (Log.open maxSegmentBytes (Dir.empty path)).1 = .ok start ∧
      performAll calls start = (.ok (), log) ∧
      (Recovered calls (Log.open maxSegmentBytes (log.crash kept)).1 ↔
        ∀ entry ∈ log.dir.files.dropLast, (log.appended entry).length ≤ survives kept entry) := by
  obtain ⟨start, opened, fresh⟩ := ran_empty path maxSegmentBytes
  obtain ⟨log, lead, active, performed, ran⟩ := fresh.run calls fits
  rw [List.nil_append] at ran
  refine ⟨start, log, opened, performed, ?_⟩
  obtain ⟨log', reopened, first, last, read⟩ := ran.laid.reopen maxSegmentBytes kept
  have base := ran.laid.contiguous.active_base
  rw [ran.first] at base first
  rw [ran.laid.kept_whole, reopened]
  constructor
  · rintro ⟨_, k, ⟨⟩, _, within, _, ends, records⟩
    have listed := congrArg List.length (Except.ok.inj (read.symm.trans records))
    simp only [List.flatMap_append, List.length_append, List.length_flatMap, number_length,
      List.flatMap_cons, List.flatMap_nil, List.append_nil, List.length_take] at listed
    refine Chunk.remnants_whole ?_
    rw [List.length_flatMap]
    omega
  · intro lossless
    have durable := ran.durable_kept kept
    have front : (payloads calls).take ((flat lead).length +
        (active.remnant (survives kept active.entry)).records.length) =
          flat lead ++ (active.remnant (survives kept active.entry)).records := by
      rw [← ran.records, flat_append, List.take_length_add_append, flat_cons, flat_nil,
        List.append_nil]
      exact congrArg _ (List.prefix_iff_eq_take.mp (List.take_prefix _ _)).symm
    refine ⟨log', (flat lead).length + (active.remnant (survives kept active.entry)).records.length,
      rfl, durable, ?_, first, by omega, ?_⟩
    · rw [← ran.records, flat_append, List.length_append, flat_cons, flat_nil, List.append_nil]
      exact Nat.add_le_add_left (active.remnant_le _) _
    · have before := (contiguous_append.mp ran.laid.contiguous).1.number
      rw [read, front, number_append, List.flatMap_append, List.flatMap_singleton, ← base,
        ← ran.first, ← before]
      refine congrArg (fun records => Except.ok (records ++ _)) ?_
      exact List.flatMap_congr fun c member => by rw [lossless c member]

end Log
end Records

namespace Log

/-- The second record is torn; the first was synced and is left. -/
theorem recovered_iff_torn : ∃ start log, (Log.open 64 (Dir.empty "wal")).1 = .ok start ∧
    performAll [.append [1], .sync, .append [2]] start = (.ok (), log) ∧
    Recovered [.append [1], .sync, .append [2]] (Log.open 64 (log.crash fun _ => 12)).1 := by
  obtain ⟨start, log, opened, performed, left⟩ := recovered_iff "wal" 64
    [.append [1], .sync, .append [2]] (by simp [Fits, payloads, Call.payload?, maxRecordLen])
    fun _ => 12
  have single : (Log.open 64 (Dir.empty "wal")).1.toOption.map (fun start =>
      (performAll [.append [1], .sync, .append [2]] start).2.dir.files.dropLast) = some [] := by
    decide +kernel
  rw [opened, Except.toOption, Option.map_some, performed] at single
  refine ⟨start, log, opened, performed, left.mpr ?_⟩
  rw [Option.some.inj single]
  exact List.forall_mem_nil _

/-- Two records in two segments, neither synced. The first file comes back empty
and the second one whole: the log has lost record 1 and still holds record 2. -/
theorem recovered_with_gap : ∃ start log, (Log.open 1 (Dir.empty "wal")).1 = .ok start ∧
    performAll [.append [1], .append [2]] start = (.ok (), log) ∧
    ¬ Recovered [.append [1], .append [2]]
      (Log.open 1 (log.crash fun base => if base = 1 then 0 else 9)).1 := by
  obtain ⟨start, opened, fresh⟩ := ran_empty "wal" 1
  obtain ⟨log, _, _, performed, _⟩ := fresh.run [.append [1], .append [2]]
    (by simp [Fits, payloads, Call.payload?, maxRecordLen])
  have gap : (Log.open 1 (Dir.empty "wal")).1.toOption.bind (fun start =>
      (Log.open 1 ((performAll [.append [1], .append [2]] start).2.crash
        fun base => if base = 1 then 0 else 9)).1.toOption.bind fun log =>
          (readAll log).1.toOption) = some [(2, [2])] := by
    decide +kernel
  refine ⟨start, log, opened, performed, ?_⟩
  rintro ⟨log', k, reopened, _, _, _, _, records⟩
  rw [opened, Except.toOption, Option.bind_some, performed, reopened, Except.toOption,
    Option.bind_some, records] at gap
  cases k with
  | zero => cases gap
  | succ k => cases gap

end Log
end WalKv
