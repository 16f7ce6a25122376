import WalKv.Crc32.Bursts
import WalKv.Wal.Swapped

/-! Damage that a checksum against bursts is sure to notice. A payload of which up to 32
consecutive bits have changed is never read back: the log does not open, or it opens without this
record. -/
namespace WalKv
open Framing (stream)
open LittleEndian

/-- What follows a common start has another checksum once a burst has hit it. -/
def NoticesBursts [Checksum] : Prop :=
  ∀ {payload changed : Bytes}, Crc32.Burst payload changed → ∀ start : Bytes,
    Checksum.crc (start ++ payload) ≠ Checksum.crc (start ++ changed)

theorem crc32_noticesBursts : NoticesBursts := fun burst start => burst.checksum_ne start

/-- A segment file of which one payload has been hit by a burst. -/
structure Hit where
  before : List Bytes
  payload : Bytes
  changed : Bytes
  after : List Bytes
  fits : Fits (before ++ payload :: after)
  burst : Crc32.Burst payload changed

namespace Hit

theorem length_eq (hit : Hit) : hit.changed.length = hit.payload.length := by
  obtain ⟨before, u, v, after, left, right, length, _, _⟩ := hit.burst
  have lengths := congrArg List.length left
  have lengths' := congrArg List.length right
  rw [Crc32.bits_length] at lengths lengths'
  simp only [List.length_append] at lengths lengths'
  omega

theorem small (hit : Hit) : hit.payload.length ≤ maxRecordLen := hit.fits hit.payload (by simp)

section Bursts
variable [Checksum]

/-- The file from the changed record on. -/
def rest (hit : Hit) : Bytes := recordHeader hit.payload ++ (hit.changed ++ stream frame hit.after)

def content (hit : Hit) : Bytes := stream frame hit.before ++ hit.rest

theorem header_ne (notices : NoticesBursts) (hit : Hit) :
    recordHeader hit.payload ≠ recordHeader hit.changed := by
  intro same
  rw [recordHeader, recordHeader, hit.length_eq] at same
  have sums := congrArg decode (List.append_inj_left' same rfl)
  rw [decode_encode (UInt32.toNat_lt _), decode_encode (UInt32.toNat_lt _)] at sums
  exact notices hit.burst (encode 4 hit.payload.length) (UInt32.toNat_inj.mp sums)

theorem parse_rest (notices : NoticesBursts) (hit : Hit) :
    parse hit.rest = (.corrupt, stream frame hit.after) := by
  have full := recordHeader_length hit.payload
  have bound : hit.payload.length < 256 ^ 4 := lt_of_le_of_lt hit.small (by decide)
  have len : decode ((recordHeader hit.payload).drop 4) = hit.changed.length := by
    rw [recordHeader, List.drop_left' (encode_length _ _), decode_encode bound, hit.length_eq]
  have small : hit.changed.length ≤ maxRecordLen := hit.length_eq ▸ hit.small
  obtain ⟨read, left⟩ := parse_sized (stream frame hit.after) full len small
  have corrupt : (parse hit.rest).1 = .corrupt := by
    rcases List.mem_cons.mp read with corrupt | entry
    · exact corrupt
    · have found : parse hit.rest = (.entry hit.changed, stream frame hit.after) :=
        Prod.ext (List.mem_singleton.mp entry) left
      have whole := (parse_exact found).1
      rw [frame_eq, List.append_assoc] at whole
      exact absurd (List.append_inj_left whole (full.trans (recordHeader_length _).symm))
        (hit.header_ne notices)
  exact Prod.ext corrupt left

theorem run (notices : NoticesBursts) (hit : Hit) : LongestRun hit.content hit.before hit.rest := by
  have fits : Fits hit.before := fun x inside => hit.fits x (List.mem_append_left _ inside)
  refine ⟨rfl, fits, ?_⟩
  intro others fits' inside
  refine run_longest fits ?_ fits' inside
  intro found entry
  rw [hit.parse_rest notices] at entry
  cases entry

/-- The file with its number, as recovery finds it. -/
def scanned (notices : NoticesBursts) (hit : Hit) (base : Nat) : Scanned :=
  ⟨base, ⟨hit.content, hit.content.length⟩, hit.before, hit.rest, hit.run notices⟩

theorem damaged_iff (notices : NoticesBursts) (hit : Hit) (base : Nat) :
    (hit.scanned notices base).Damaged ↔ hit.after ≠ [] := by
  have fits : Fits hit.after := fun x inside => hit.fits x (by simp [inside])
  have clean : Clean (stream frame hit.after) := ⟨hit.after, fits, rfl⟩
  rw [Scanned.Damaged, interior_iff, show (hit.scanned notices base).rest = hit.rest from rfl,
    hit.parse_rest notices]
  constructor
  · rintro ⟨_, more, _⟩ none
    rw [none] at more
    exact more rfl
  · intro more
    refine ⟨rfl, ?_, clean⟩
    intro empty
    have none := length_le_stream hit.after
    rw [show stream frame hit.after = [] from empty] at none
    exact more (List.length_eq_zero_iff.mp (Nat.le_zero.mp none))

end Bursts
end Hit

namespace Log

section Bursts
variable [Checksum] {log : Log} {lead front back : List Chunk} {active c : Chunk} {hit : Hit}

/-- The directory of a log after a burst has hit a payload in one of its segments. -/
def struck (log : Log) (c : Chunk) (hit : Hit) : Dir :=
  log.dir.setFile c.base ⟨hit.content, hit.content.length⟩

/-- With a checksum that notices bursts, one in a payload of a synced log is always noticed. If
other records follow in the same segment, the log does not open and the file stays as it is. If
not, the log opens without this record, and every other record keeps its index, also behind the
gap. -/
theorem open_notices_burst (notices : NoticesBursts) (laid : log.Laid lead active)
    (healthy : log.dir.outcomes = []) (synced : ∀ x ∈ lead ++ [active], x.Synced)
    (split : lead ++ [active] = front ++ c :: back)
    (records : c.records = hit.before ++ hit.payload :: hit.after) (maxSegmentBytes : Nat) :
    (hit.after ≠ [] → ∃ msg,
      (Log.open maxSegmentBytes (struck log c hit)).1 = .error (.err (.corruption msg)) ∧
      (Log.open maxSegmentBytes (struck log c hit)).2.find c.base =
        some ⟨hit.content, hit.content.length⟩) ∧
    (hit.after = [] → ∃ log', (Log.open maxSegmentBytes (struck log c hit)).1 = .ok log' ∧
      (readAll log').1 = .ok ((number log.firstIndex (flat (lead ++ [active]))).filter
        (·.1 ≠ c.base + hit.before.length))) := by
  constructor
  · intro more
    have covers : Covers (log.swapped (hit.scanned notices c.base))
        (aside front (hit.scanned notices c.base) back) :=
      swapped_covers laid healthy synced split rfl
    have opens := reopens covers (by simp [aside]) maxSegmentBytes
    have inside : hit.scanned notices c.base ∈ aside front (hit.scanned notices c.base) back :=
      List.mem_append_right _ List.mem_cons_self
    have damaged := (hit.damaged_iff notices c.base).mpr more
    obtain ⟨msg, refused⟩ := opens.refuses ⟨_, inside, damaged⟩
    exact ⟨msg, refused, opens.untouched _ inside damaged⟩
  · intro last
    rw [last] at records
    have sound : ¬ (hit.scanned notices c.base).Damaged := fun damaged =>
      (hit.damaged_iff notices c.base).mp damaged last
    have own : c.records = (hit.scanned notices c.base).records ++ [hit.payload] := records
    exact swapped_opens laid healthy synced split rfl own sound maxSegmentBytes

end Bursts

def fullSegment : Chunk := .settled 1 [[1], [2, 2]] (by simp [Fits, maxRecordLen])

def lastSegment : Chunk := .settled 3 [[3]] (by simp [Fits, maxRecordLen])

/-- Two segments, synced. -/
def twoSegments : Log where
  dir := ⟨"wal", [fullSegment.entry, lastSegment.entry], [], []⟩
  maxSegmentBytes := 1
  segments := [fullSegment.segment, lastSegment.segment]
  firstIndex := 1
  lastIndex := 3

/-- Both bytes of the second record are other ones. -/
def struckLast : Hit where
  before := [[1]]
  payload := [2, 2]
  changed := [7, 8]
  after := []
  fits := by simp [Fits, maxRecordLen]
  burst := Crc32.Burst.of_bytes (u := [2, 2]) (v := [7, 8]) [] [] rfl (by decide) (by decide)

theorem open_notices_burst_gap :
    ∃ log', (Log.open 1 (struck twoSegments fullSegment struckLast)).1 = .ok log' ∧
      (readAll log').1 = .ok [(1, [1]), (3, [3])] := by
  have laid : twoSegments.Laid [fullSegment] lastSegment :=
    ⟨rfl, rfl, ⟨rfl, rfl, trivial⟩, by decide, rfl, by simp [fullSegment, Chunk.settled], rfl⟩
  have synced : ∀ x ∈ [fullSegment] ++ [lastSegment], x.Synced := by
    intro x inside
    rcases List.mem_cons.mp inside with rfl | inside
    · exact Chunk.settled_synced _ _ _
    · rw [List.mem_singleton.mp inside]
      exact Chunk.settled_synced _ _ _
  have split : [fullSegment] ++ [lastSegment] = [] ++ fullSegment :: [lastSegment] := rfl
  have records : fullSegment.records =
      struckLast.before ++ struckLast.payload :: struckLast.after := rfl
  exact (open_notices_burst crc32_noticesBursts laid rfl synced split records 1).2 rfl

end Log
end WalKv
