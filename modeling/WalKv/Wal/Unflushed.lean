import WalKv.Wal.Exactness
import WalKv.Wal.Truncation

/-! Cutting the end of a log some of whose records are still in write buffers. The records
to be kept are read back from the file, so that those which have not reached it are lost. -/
namespace WalKv
open Framing (stream)

section Records
variable [Checksum] {records kept : List Bytes} {bytes : Bytes} {chunks front lead : List Chunk}
  {active c : Chunk} {log : Log} {dir : Dir} {keepLast i : Nat}

theorem Segment.items_prefix_iff {fuel : Nat} (enough : bytes.length < fuel) :
    records.map .ok <+: items fuel ⟨bytes, []⟩ ↔ stream frame records <+: bytes ∧ Fits records := by
  induction records generalizing fuel bytes with
  | nil => exact ⟨fun _ => ⟨List.nil_prefix, fits_nil⟩, fun _ => List.nil_prefix⟩
  | cons payload records ih =>
    obtain ⟨fuel, rfl⟩ := Nat.exists_eq_succ_of_ne_zero (Nat.ne_zero_of_lt enough)
    rw [List.map_cons, Framing.stream_cons, Fits, List.forall_mem_cons]
    constructor
    · rintro ⟨more, read⟩
      obtain ⟨rest, rfl, small, shorter, later⟩ := items_cons enough read.symm
      obtain ⟨inside, fits⟩ := (ih shorter).mp ⟨more, later.symm⟩
      exact ⟨(List.prefix_append_right_inj _).mpr inside, small, fits⟩
    · rintro ⟨⟨rest, rfl⟩, small, fits⟩
      rw [List.append_assoc] at enough ⊢
      rw [items, readRecord_whole, parse_frame small]
      rw [List.length_append, frame_length, headerLen] at enough
      have shorter : (stream frame records ++ rest).length < fuel := by omega
      exact List.cons_prefix_cons.mpr ⟨rfl, (ih shorter).mpr ⟨List.prefix_append _ _, fits⟩⟩

namespace Log

omit [Checksum] in
theorem survivors_prefix {items : List (Except Error Bytes)} (inside : kept.map .ok <+: items)
    (width : kept.length = keepLast + 1 - i) : survivors keepLast i items = .ok kept := by
  induction kept generalizing i items with
  | nil =>
    have above : keepLast < i := by
      rw [List.length_nil] at width
      omega
    cases items with
    | nil => rfl
    | cons item items => exact if_pos above
  | cons payload kept ih =>
    obtain ⟨rest, rfl⟩ := inside
    rw [List.length_cons] at width
    have within : ¬ keepLast < i := by omega
    rw [List.map_cons, List.cons_append, survivors, if_neg within,
      ih (List.prefix_append _ _) (by omega : kept.length = keepLast + 1 - (i + 1))]
    rfl

omit [Checksum] in
theorem survivors_inside {items : List (Except Error Bytes)}
    (ok : survivors keepLast i items = .ok kept) :
    kept.map .ok <+: items ∧ kept.length ≤ keepLast + 1 - i ∧
      (kept.length < keepLast + 1 - i → items = kept.map .ok) := by
  induction items generalizing i kept with
  | nil =>
    cases ok
    exact ⟨List.nil_prefix, Nat.zero_le _, fun _ => rfl⟩
  | cons item items ih =>
    rw [survivors] at ok
    split_ifs at ok with above
    · cases ok
      refine ⟨List.nil_prefix, Nat.zero_le _, fun short => ?_⟩
      rw [List.length_nil] at short
      omega
    · cases item with
      | error => cases ok
      | ok payload =>
        rcases later : survivors keepLast (i + 1) items with error | rest
        · rw [later] at ok
          cases ok
        · rw [later] at ok
          obtain rfl := Except.ok.inj ok
          obtain ⟨inside, most, all⟩ := ih later
          rw [List.length_cons]
          refine ⟨List.cons_prefix_cons.mpr ⟨rfl, inside⟩, by omega, fun short => ?_⟩
          rw [all (by omega), List.map_cons]

omit [Checksum] in
theorem numbered_inv {items : List (Except Error Bytes)} {listed : List (Nat × Bytes)}
    (ok : numbered i items = .ok listed) :
    ∃ records, items = records.map .ok ∧ listed = number i records := by
  induction items generalizing i listed with
  | nil =>
    cases ok
    exact ⟨[], rfl, rfl⟩
  | cons item items ih =>
    cases item with
    | error => cases ok
    | ok payload =>
      rw [numbered] at ok
      rcases later : numbered (i + 1) items with error | rest
      · rw [later] at ok
        cases ok
      · rw [later] at ok
        obtain rfl := Except.ok.inj ok
        obtain ⟨records, rfl, rfl⟩ := ih later
        exact ⟨payload :: records, rfl, rfl⟩

end Log

namespace Chunk

/-- The first `n` records have reached the file. -/
def Reached (n : Nat) (c : Chunk) : Prop := stream frame (c.records.take n) <+: c.file.content

theorem inside (c : Chunk) : c.file.content <+: stream frame c.records :=
  ⟨c.segment.buffer, c.written⟩

theorem reached_all (c : Chunk) {n : Nat} (all : c.records.length ≤ n) :
    c.Reached n ↔ c.file.content = stream frame c.records := by
  rw [Reached, List.take_of_length_le all]
  constructor
  · intro reached
    exact c.inside.eq_of_length_le reached.length_le
  · intro same
    rw [same]

theorem read_inside (c : Chunk) (fits : Fits records) (there : stream frame records <+: c.file.content) :
    records <+: c.records := by
  have unreadable : ∀ found, (parse []).1 ≠ .entry found := by
    rw [parse_nil]
    exact fun _ => RecordRead.noConfusion
  have within : stream frame records <+: stream frame c.records ++ [] := by
    rw [List.append_nil]
    exact there.trans c.inside
  exact run_longest c.fits unreadable fits within

theorem iter_healthy (c : Chunk) (healthy : dir.outcomes = []) (found : dir.find c.base = some c.file) :
    c.segment.iter dir =
      (.ok (Segment.items (c.file.content.length + 1) ⟨c.file.content, []⟩), dir) := by
  have found : dir.find c.segment.baseIndex = some c.file := found
  rw [Segment.iter, Fallible.bind_ok (Dir.read_run (Dir.ready_nil healthy) found),
    Dir.with_nil healthy]
  rfl

/-- What `truncate_suffix` reads of the segment that the cut falls into. -/
def survivors (keepLast : Nat) (c : Chunk) : Except Error (List Bytes) :=
  Log.survivors keepLast c.base (Segment.items (c.file.content.length + 1) ⟨c.file.content, []⟩)

theorem survivors_records (c : Chunk) (ok : c.survivors keepLast = .ok kept) :
    stream frame kept <+: c.file.content ∧ Fits kept ∧ kept <+: c.records ∧
      kept.length ≤ keepLast + 1 - c.base := by
  obtain ⟨inside, short, _⟩ := Log.survivors_inside ok
  obtain ⟨there, fits⟩ := (Segment.items_prefix_iff (Nat.lt_succ_self _)).mp inside
  exact ⟨there, fits, c.read_inside fits there, short⟩

theorem survivors_reached (c : Chunk) (within : keepLast + 1 - c.base ≤ c.records.length)
    (reached : c.Reached (keepLast + 1 - c.base)) :
    c.survivors keepLast = .ok (c.records.take (keepLast + 1 - c.base)) := by
  refine Log.survivors_prefix ?_ (List.length_take_of_le within)
  exact (Segment.items_prefix_iff (Nat.lt_succ_self _)).mpr
    ⟨reached, fun payload member => c.fits payload (List.mem_of_mem_take member)⟩

end Chunk

namespace Log

/-- Reading never returns more than the records of the segments, and as many only if they
have all reached the files. -/
theorem readSegments_short (healthy : dir.outcomes = [])
    (found : ∀ c ∈ chunks, dir.find c.base = some c.file) {read : List (Nat × Bytes)}
    (ok : (readSegments (chunks.map Chunk.segment) dir).1 = .ok read) :
    read.length ≤ (flat chunks).length ∧ (read.length = (flat chunks).length →
      ∀ c ∈ chunks, c.file.content = stream frame c.records) := by
  induction chunks generalizing read with
  | nil =>
    cases ok
    exact ⟨Nat.zero_le _, fun _ => List.forall_mem_nil _⟩
  | cons c chunks ih =>
    have items := c.iter_healthy healthy (found c List.mem_cons_self)
    rw [List.map_cons, readSegments, Fallible.bind_ok items] at ok
    rcases here : numbered c.segment.baseIndex
        (Segment.items (c.file.content.length + 1) ⟨c.file.content, []⟩) with error | first
    · rw [here] at ok
      cases ok
    · rw [here] at ok
      obtain ⟨records, all, rfl⟩ := numbered_inv here
      obtain ⟨content, fits⟩ := (Segment.items_exact_iff (Nat.lt_succ_self _)).mp all
      have own := c.read_inside fits (content ▸ List.prefix_rfl)
      rcases later : readSegments (chunks.map Chunk.segment) dir with ⟨stop | rest, dir'⟩
      · simp only [Fallible.bind_run, Except.mapError, Fallible.lift_run, later] at ok
        cases ok
      · simp only [Fallible.bind_run, Except.mapError, Fallible.lift_run, later,
          Fallible.pure_run] at ok
        obtain rfl := Except.ok.inj ok
        have fewer := own.length_le
        obtain ⟨short, exact'⟩ := ih (fun x inside => found x (List.mem_cons_of_mem _ inside))
          (congrArg Prod.fst later)
        rw [flat_cons, List.length_append, List.length_append, number_length]
        refine ⟨by omega, fun same => List.forall_mem_cons.mpr ⟨?_, exact' (by omega)⟩⟩
        rw [content, own.eq_of_length (by omega)]

/-- Creating a segment and filling it. -/
theorem regrow_cases {base : Nat} (segments : log.segments = front.map Chunk.segment)
    (files : log.dir.files = front.map Chunk.entry) (absent : base ∉ log.dir.files.map Prod.fst)
    (fits : Fits records) :
    (∃ (c' : Chunk) (outcomes : List Outcome), c'.Synced ∧ c'.records = records ∧ c'.base = base ∧
        regrow base records log = (.ok (), log.holding (front ++ [c']) outcomes) ∧
        (log.dir.outcomes = [] → outcomes = [])) ∨
      log.dir.outcomes ≠ [] ∧ ∃ stop, (regrow base records log).1 = .error stop := by
  have grown := regrow_run segments files absent fits
  rcases ended : regrow base records log with ⟨stop | ⟨⟩, log'⟩ <;> rw [ended] at grown
  · refine .inr ⟨fun healthy => ?_, stop, rfl⟩
    cases (grown.healthy healthy).1
  · obtain ⟨c', outcomes, durable, all, here, rfl⟩ := grown.done rfl
    exact .inl ⟨c', outcomes, durable, all, here, rfl, fun healthy => (grown.healthy healthy).2⟩

section
variable (segments : log.segments = (front ++ [c]).map Chunk.segment)
  (files : log.dir.files = (front ++ [c]).map Chunk.entry)
  (distinct : (log.dir.files.map Prod.fst).Nodup) (healthy : log.dir.outcomes = [])
include segments files distinct healthy

omit segments in
theorem rewriteLast_read : onDir c.segment.iter log =
    (.ok (Segment.items (c.file.content.length + 1) ⟨c.file.content, []⟩), log) := by
  rw [onDir, Fallible.part_run, c.iter_healthy healthy (find_entry files distinct (by simp))]

theorem rewriteLast_unreadable {error : Error} (unreadable : c.survivors keepLast = .error error) :
    rewriteLast keepLast log = (.error (.err error), log) := by
  have last : log.segments.getLast? = some c.segment := by simp [segments]
  have unreadable : Log.survivors keepLast c.segment.baseIndex _ = _ := unreadable
  simp only [rewriteLast, Fallible.bind_run, Fallible.get_run, last,
    rewriteLast_read files distinct healthy, unreadable, Except.mapError, Fallible.lift_run]

theorem rewriteLast_healthy (read : c.survivors keepLast = .ok kept) :
    ∃ c' : Chunk, c'.Synced ∧ c'.records = kept ∧ c'.base = c.base ∧
      rewriteLast keepLast log = (.ok (), log.holding (front ++ [c']) []) := by
  have last : log.segments.getLast? = some c.segment := by simp [segments]
  have shorter : log.segments.dropLast = front.map Chunk.segment := by
    rw [segments, List.map_append]
    exact List.dropLast_concat
  have absent : c.base ∉ (front.map Chunk.entry).map Prod.fst := by
    rw [List.map_append] at files
    exact Dir.absent_before files distinct
  have begun : rewriteLast keepLast log = (do
      onDir c.segment.remove
      regrow c.base kept : Method Unit) { log with segments := front.map Chunk.segment } := by
    have read : Log.survivors keepLast c.segment.baseIndex _ = _ := read
    simp only [regrow, refill, Fallible.bind_assoc]
    simp only [rewriteLast, Fallible.bind_run, Fallible.get_run, last,
      rewriteLast_read files distinct healthy, read, Except.mapError, Fallible.lift_run,
      pop, Fallible.modify_run, shorter]
    rfl
  obtain ⟨removed, _⟩ :=
    remove_chunk { log with segments := front.map Chunk.segment } files distinct
  rw [List.append_nil] at removed
  have there : (log.holding front []).segments = front.map Chunk.segment := rfl
  rw [begun, Fallible.bind_ok (removed _ (Dir.ready_nil healthy))]
  rcases regrow_cases there rfl absent (c.survivors_records read).2.1 with
    ⟨c', outcomes, durable, records, base, grown, none⟩ | ⟨some, _⟩
  · exact ⟨c', durable, records, base, none rfl ▸ grown⟩
  · exact absurd rfl some

end

namespace Laid
variable {trailing : List Chunk}

section
variable (laid : log.Laid lead active) (healthy : log.dir.outcomes = [])
  (accepted : log.firstIndex ≤ keepLast + 1) (cut : keepLast < log.lastIndex)
  (split : lead ++ [active] = front ++ [c] ++ trailing)
  (past : ∀ t ∈ trailing, keepLast < t.base) (stays : front = [] ∨ c.base ≤ keepLast)
include laid healthy accepted cut split past stays

theorem truncateSuffix_reaches : Log.truncateSuffix keepLast log = (do
    rewriteLast keepLast
    Fallible.modify fun log => { log with lastIndex := keepLast } : Method Unit)
      (log.holding (front ++ [c]) []) := by
  rcases laid.truncateSuffix_begins accepted cut split past stays with
    ⟨_, begun⟩ | ⟨_, _, _, bad, _⟩
  · rw [begun, healthy, List.drop_nil]
  · exact absurd (healthy ▸ Dir.goesWell_nil _) bad

theorem truncateSuffix_unreadable {error : Error} (unreadable : c.survivors keepLast = .error error) :
    (Log.truncateSuffix keepLast log).1 = .error (.err error) := by
  have reaches := laid.truncateSuffix_reaches healthy accepted cut split past stays
  have distinct := laid.kept_distinct split
  rw [reaches, Fallible.bind_error (rewriteLast_unreadable rfl rfl distinct rfl unreadable)]

theorem truncateSuffix_rewritten (read : c.survivors keepLast = .ok kept) :
    ∃ c' : Chunk, c'.Synced ∧ c'.records = kept ∧ c'.base = c.base ∧
      Log.truncateSuffix keepLast log =
        (.ok (), { log with lastIndex := keepLast }.holding (front ++ [c']) []) := by
  have reaches := laid.truncateSuffix_reaches healthy accepted cut split past stays
  have there : (log.holding (front ++ [c]) []).segments = (front ++ [c]).map Chunk.segment := rfl
  obtain ⟨c', durable, records, base, rewritten⟩ :=
    rewriteLast_healthy there rfl (laid.kept_distinct split) rfl read
  refine ⟨c', durable, records, base, ?_⟩
  rw [reaches, Fallible.bind_ok rewritten]
  rfl

end

theorem readAll_reached (laid : log.Laid lead active) (healthy : log.dir.outcomes = [])
    (reached : ∀ x ∈ lead ++ [active], x.file.content = stream frame x.records) :
    (readAll log).1 = .ok (number log.firstIndex (flat (lead ++ [active]))) := by
  have read := readSegments_run healthy (fun x => find_entry laid.files laid.distinct) reached
  simp only [readAll, Fallible.bind_run, Fallible.get_run, onDir, Fallible.part_run, laid.segments,
    read]
  exact congrArg Except.ok laid.contiguous.number

/-- Where nothing fails, the records up to the cut are kept exactly if they have all reached
their files. -/
theorem truncateSuffix_keeps_iff (laid : log.Laid lead active) (healthy : log.dir.outcomes = [])
    (accepted : log.firstIndex ≤ keepLast + 1) (cut : keepLast < log.lastIndex) :
    (∃ log', Log.truncateSuffix keepLast log = (.ok (), log') ∧
      (readAll log').1 = .ok (number log.firstIndex
        ((flat (lead ++ [active])).take (keepLast + 1 - log.firstIndex))) ∧
      ∃ last, log'.segments.getLast? = some last ∧
        log'.lastIndex + 1 = last.baseIndex + last.count) ↔
    ∀ c ∈ lead ++ [active], c.Reached (keepLast + 1 - c.base) := by
  obtain ⟨front, c, trailing, split, past, stays⟩ := split_at_cut keepLast
    (List.append_ne_nil_of_right_ne_nil lead (List.cons_ne_nil active []))
  obtain ⟨start, below, inside⟩ := laid.cut_inside accepted cut split past stays
  have before : ∀ x ∈ front, x.records.length ≤ keepLast + 1 - x.base := by
    intro x member
    have contiguous := laid.contiguous
    rw [split, List.append_assoc, contiguous_append] at contiguous
    have within := contiguous.1.within member
    omega
  constructor
  · rintro ⟨log', ended, read, -⟩
    rcases survived : c.survivors keepLast with error | kept
    · have failed := laid.truncateSuffix_unreadable healthy accepted cut split past stays survived
      rw [ended] at failed
      cases failed
    · obtain ⟨c', durable, rfl, base, rewritten⟩ :=
        laid.truncateSuffix_rewritten healthy accepted cut split past stays survived
      obtain ⟨there, _, own, short⟩ := c.survivors_records survived
      obtain ⟨-, rfl⟩ := Prod.mk.inj (ended.symm.trans rewritten)
      have distinct' : (((front ++ [c']).map Chunk.entry).map Prod.fst).Nodup := by
        simpa [Chunk.entry, base] using laid.kept_distinct split
      obtain ⟨fewer, all⟩ := readSegments_short rfl
        (fun x member => find_entry rfl distinct' member) read
      have width : ((flat (lead ++ [active])).take (keepLast + 1 - log.firstIndex)).length =
          (flat front).length + (keepLast + 1 - c.base) := by
        have size := laid.last
        rw [List.length_take]
        omega
      rw [number_length, width, flat_append, List.length_append, flat_cons, flat_nil,
        List.append_nil] at fewer all
      have enough : c'.records.length = keepLast + 1 - c.base := by omega
      have flushed := all (by rw [enough])
      rw [split]
      simp only [List.forall_mem_append, List.forall_mem_singleton]
      refine ⟨⟨fun x member => ?_, ?_⟩, fun t member => ?_⟩
      · exact (x.reached_all (before x member)).mpr (flushed x (List.mem_append_left _ member))
      · rw [Chunk.Reached, ← enough, ← List.prefix_iff_eq_take.mp own]
        exact there
      · have none : keepLast + 1 - t.base = 0 := Nat.sub_eq_zero_of_le (past t member)
        rw [Chunk.Reached, none]
        exact List.nil_prefix
  · intro reached
    obtain ⟨c', durable, records, base, rewritten⟩ := laid.truncateSuffix_rewritten healthy accepted
      cut split past stays (c.survivors_reached inside (reached c (by simp [split])))
    obtain ⟨laid', kept⟩ := laid.shortened accepted cut split past stays records base []
    refine ⟨_, rewritten, ?_, c'.segment, laid'.getLast, ?_⟩
    · have all : ∀ x ∈ front ++ [c'], x.file.content = stream frame x.records := by
        intro x member
        rcases List.mem_append.mp member with old | new
        · exact (x.reached_all (before x old)).mp (reached x (by simp [split, old]))
        · rw [List.mem_singleton.mp new]
          exact durable.content
      rw [← kept]
      exact laid'.readAll_reached rfl all
    · rw [laid'.last, c'.count]
      have ends := laid'.contiguous.active_base
      rw [flat_append, List.length_append, ← Nat.add_assoc, ← ends, flat_cons, flat_nil,
        List.append_nil]
      rfl

end Laid
end Log
end Records

/-- Two records, the second one still in the buffer. -/
def Chunk.halfFlushed : Chunk where
  segment := ⟨1, frame [2], 18, 2⟩
  file := ⟨frame [1], 9⟩
  records := [[1], [2]]
  written := by decide +kernel
  bytes := by decide +kernel
  count := rfl
  durable := by decide +kernel
  fits := by
    unfold Fits
    decide

def Log.halfFlushed : Log :=
  ⟨⟨"wal", [(1, ⟨frame [1], 9⟩)], [], []⟩, 1000, [⟨1, frame [2], 18, 2⟩], 1, 2⟩

theorem Log.halfFlushed_laid : Log.halfFlushed.Laid [] .halfFlushed :=
  ⟨rfl, rfl, ⟨rfl, trivial⟩, le_rfl, rfl, by simp, rfl⟩

/-- The record that is in the file is kept. -/
theorem Log.Laid.truncateSuffix_keeps_iff_half : ∃ log',
    Log.truncateSuffix 1 Log.halfFlushed = (.ok (), log') ∧
      (Log.readAll log').1 = .ok (number 1 [[1]]) ∧
      ∃ last, log'.segments.getLast? = some last ∧
        log'.lastIndex + 1 = last.baseIndex + last.count := by
  refine (Log.halfFlushed_laid.truncateSuffix_keeps_iff rfl (by decide) (by decide)).mpr ?_
  intro c member
  rw [List.mem_singleton.mp member]
  exact List.prefix_rfl

/-- A new log. -/
def Log.fresh : Log := ⟨⟨"wal", [(1, ⟨[], 0⟩)], [], []⟩, 1000, [⟨1, [], 0, 0⟩], 1, 0⟩

/-- Two records are appended to a new log and the second one is cut off. The first one is
still in the buffer: it is lost, and the last segment does not reach up to the last index. -/
theorem Log.truncateSuffix_loses_buffered : ∃ log₁ log₂,
    (Log.open 1000 ⟨"wal", [], [], []⟩).1 = .ok Log.fresh ∧
      Log.append [1] Log.fresh = (.ok 1, log₁) ∧ Log.append [2] log₁ = (.ok 2, log₂) ∧
      Log.truncateSuffix 1 log₂ = (.ok (), { Log.fresh with lastIndex := 1 }) ∧
      (Log.readAll { Log.fresh with lastIndex := 1 }).1 = .ok [] := by
  refine ⟨{ Log.fresh with segments := [⟨1, frame [1], 9, 1⟩], lastIndex := 1 },
    { Log.fresh with segments := [⟨1, frame [1] ++ frame [2], 18, 2⟩], lastIndex := 2 }, ?_⟩
  decide +kernel

end WalKv
