import WalKv.Wal.Layout

/-! Appending to a log and syncing it, whatever the file operations end in. A failed append
may leave a front part of a frame behind the last record; a failed sync loses nothing. -/
namespace WalKv
open Framing (stream)

variable [Checksum] {dir : Dir} {payload : Bytes} {chunks lead lead' : List Chunk}
  {active active' : Chunk} {first : Nat}

omit [Checksum] in
theorem forall₂_mem {α β : Type} {R : α → β → Prop} {xs : List α} {ys : List β}
    (pairs : List.Forall₂ R xs ys) {x : α} (member : x ∈ xs) : ∃ y ∈ ys, R x y := by
  induction pairs with
  | nil => cases member
  | cons related _ ih =>
    rcases List.mem_cons.mp member with rfl | later
    · exact ⟨_, List.mem_cons_self, related⟩
    · obtain ⟨y, inside, related'⟩ := ih later
      exact ⟨y, List.mem_cons_of_mem _ inside, related'⟩

/-- The same records in the same segments, perhaps with more of them in the files. -/
def SameRecords : List Chunk → List Chunk → Prop :=
  List.Forall₂ fun c c' => c'.base = c.base ∧ c'.records = c.records

namespace SameRecords

theorem refl (chunks : List Chunk) : SameRecords chunks chunks :=
  List.forall₂_same.mpr fun _ _ => ⟨rfl, rfl⟩

theorem flat {chunks' : List Chunk} (same : SameRecords chunks chunks') :
    WalKv.flat chunks' = WalKv.flat chunks := by
  induction same with
  | nil => rfl
  | cons first _ ih => rw [flat_cons, flat_cons, first.2, ih]

theorem contiguous {chunks' : List Chunk} (same : SameRecords chunks chunks')
    (contiguous : Contiguous first chunks) : Contiguous first chunks' := by
  induction same generalizing first with
  | nil => trivial
  | cons here _ ih => exact ⟨here.1.trans contiguous.1, ih (here.2 ▸ contiguous.2)⟩

theorem bases {chunks' : List Chunk} (same : SameRecords chunks chunks') :
    chunks'.map Chunk.base = chunks.map Chunk.base := by
  induction same with
  | nil => rfl
  | cons here _ ih => rw [List.map_cons, List.map_cons, here.1, ih]

theorem full {chunks' : List Chunk} (same : SameRecords chunks chunks')
    (full : ∀ c ∈ chunks, c.records ≠ []) : ∀ c ∈ chunks', c.records ≠ [] := by
  induction same with
  | nil => exact full
  | cons here _ ih =>
    have later := ih fun c member => full c (List.mem_cons_of_mem _ member)
    exact List.forall_mem_cons.mpr ⟨here.2 ▸ full _ List.mem_cons_self, later⟩

theorem split {chunks' : List Chunk} (same : SameRecords (lead ++ [active]) chunks') :
    ∃ lead' active', chunks' = lead' ++ [active'] ∧ SameRecords lead lead' ∧
      active'.base = active.base ∧ active'.records = active.records := by
  induction lead generalizing chunks' with
  | nil =>
    obtain ⟨active', _, here, none, rfl⟩ := List.forall₂_cons_left_iff.mp same
    obtain rfl := List.forall₂_nil_left_iff.mp none
    exact ⟨[], active', rfl, .nil, here.1, here.2⟩
  | cons c lead ih =>
    obtain ⟨c', rest, here, later, rfl⟩ := List.forall₂_cons_left_iff.mp same
    obtain ⟨lead', active', rfl, front, back⟩ := ih later
    exact ⟨c' :: lead', active', rfl, .cons here front, back⟩

/-- Once they are synced, the records say what the segments and files are. -/
theorem flushed {chunks' : List Chunk} (same : SameRecords chunks chunks')
    (synced : ∀ c ∈ chunks', c.Synced) :
    chunks'.map Chunk.segment = chunks.map (·.flushed.segment) ∧
      chunks'.map Chunk.entry = chunks.map (·.flushed.entry) := by
  induction same with
  | nil => exact ⟨rfl, rfl⟩
  | @cons c c' _ _ here _ ih =>
    obtain ⟨head, tail⟩ := List.forall_mem_cons.mp synced
    obtain ⟨segments, entries⟩ := ih tail
    have settled : c'.flushed = c.flushed := by
      simp only [Chunk.flushed, here.1, here.2]
    have entry : c'.entry = c.flushed.entry := by
      rw [Chunk.entry, (Chunk.eq_flushed head).2, settled, here.1]
      rfl
    rw [List.map_cons, List.map_cons, List.map_cons, List.map_cons, segments, entries, entry,
      (Chunk.eq_flushed head).1, settled]
    exact ⟨rfl, rfl⟩

end SameRecords

namespace Log
variable {log : Log}

/-- The induction is on the segments still to sync. The files of those done come first, and
other files may follow. -/
theorem syncSegments_cases {done others : List (Nat × File)}
    (files : dir.files = done ++ (chunks.map Chunk.entry ++ others))
    (distinct : (dir.files.map Prod.fst).Nodup) :
    ∃ (chunks' : List Chunk) (ended : Except Stop Unit) (outcomes : List Outcome),
      SameRecords chunks chunks' ∧
      syncSegments (chunks.map Chunk.segment) dir = (ended,
        { dir with files := done ++ (chunks'.map Chunk.entry ++ others), outcomes },
        chunks'.map Chunk.segment) ∧
      (ended = .ok () → ∀ c ∈ chunks', c.Synced) ∧
      (dir.outcomes = [] → ended = .ok () ∧ outcomes = []) := by
  induction chunks generalizing done dir with
  | nil =>
    refine ⟨[], .ok (), dir.outcomes, .nil, ?_, by simp, fun none => ⟨rfl, none⟩⟩
    simp only [List.map_nil] at files ⊢
    rw [← files]
    rfl
  | cons c chunks ih =>
    rw [List.map_cons, List.cons_append] at files
    have found : dir.find c.base = some c.file := Dir.find_middle files distinct
    obtain ⟨c', ended, outcomes, base, records, ran, synced, healthy⟩ := c.sync_cases found
    rw [Dir.setFile_middle files distinct] at ran
    have entry : c'.entry = (c.base, c'.file) := by rw [Chunk.entry, base]
    rw [← entry] at ran
    cases ended with
    | error stop =>
      refine ⟨c' :: chunks, .error stop, outcomes, .cons ⟨base, records⟩ (SameRecords.refl chunks), ?_,
        by simp, fun none => ?_⟩
      · simp only [List.map_cons, syncSegments, ran]
        simp [List.append_assoc]
      · cases (healthy none).1
    | ok _ =>
      have distinct' : (({ dir with
          files := done ++ [c'.entry] ++ (chunks.map Chunk.entry ++ others), outcomes } :
          Dir).files.map Prod.fst).Nodup := by
        have key : c'.entry.1 = c.entry.1 := base
        rw [files] at distinct
        simpa [List.map_append, key] using distinct
      obtain ⟨chunks', ended', outcomes', same, ran', synced', healthy'⟩ := ih rfl distinct'
      refine ⟨c' :: chunks', ended', outcomes', .cons ⟨base, records⟩ same, ?_, ?_, ?_⟩
      · simp only [List.map_cons, syncSegments, ran, ran']
        simp [List.append_assoc]
      · intro success
        exact List.forall_mem_cons.mpr ⟨synced rfl, synced' success⟩
      · intro none
        exact healthy' (healthy none).2

/-- However a sync ends, each segment holds the same records. -/
theorem Stacked.sync_cases (stacked : log.Stacked lead active) : ∃ chunks' ended outcomes,
    SameRecords (lead ++ [active]) chunks' ∧
      Log.sync log = (ended, { log with
        dir := { log.dir with files := chunks'.map Chunk.entry, outcomes }
        segments := chunks'.map Chunk.segment }) ∧
      (ended = .ok () → ∀ c ∈ chunks', c.Synced) ∧
      (log.dir.outcomes = [] → ended = .ok () ∧ outcomes = []) := by
  have files : log.dir.files = [] ++ ((lead ++ [active]).map Chunk.entry ++ []) := by
    rw [List.append_nil]
    exact stacked.files
  obtain ⟨chunks', ended, outcomes, same, ran, synced, healthy⟩ :=
    syncSegments_cases files stacked.distinct
  rw [List.append_nil] at ran
  refine ⟨chunks', ended, outcomes, same, ?_, synced, healthy⟩
  rw [Log.sync, stacked.segments, ran]
  rfl

theorem Stacked.moved (stacked : log.Stacked lead active)
    (same : SameRecords (lead ++ [active]) (lead' ++ [active'])) (outcomes : List Outcome) :
    Log.Stacked { log with
      dir := { log.dir with files := (lead' ++ [active']).map Chunk.entry, outcomes }
      segments := (lead' ++ [active']).map Chunk.segment } lead' active' where
  segments := rfl
  files := rfl
  ordered := by
    rw [same.bases]
    exact stacked.ordered
  below c' member := by
    obtain ⟨c, inside, base, records⟩ := forall₂_mem same.flip member
    rw [base, records]
    exact stacked.below c inside
  full := by
    obtain ⟨front, last, split, before, _⟩ := same.split
    obtain ⟨rfl, _⟩ := List.append_inj' split rfl
    exact before.full stacked.full

namespace Laid

theorem moved (laid : log.Laid lead active) {chunks' : List Chunk}
    (same : SameRecords (lead ++ [active]) chunks') (outcomes : List Outcome) :
    ∃ lead' active', chunks' = lead' ++ [active'] ∧ WalKv.flat (lead' ++ [active']) =
        WalKv.flat (lead ++ [active]) ∧
      Log.Laid { log with
        dir := { log.dir with files := chunks'.map Chunk.entry, outcomes }
        segments := chunks'.map Chunk.segment } lead' active' := by
  obtain ⟨lead', active', rfl, front, _, _⟩ := same.split
  refine ⟨lead', active', rfl, same.flat, ⟨rfl, rfl, same.contiguous laid.contiguous,
    laid.positive, ?_, front.full laid.full, laid.named⟩⟩
  rw [same.flat]
  exact laid.last

theorem sync_cases (laid : log.Laid lead active) : ∃ lead' active' ended log',
    Log.sync log = (ended, log') ∧ log'.Laid lead' active' ∧
      log'.firstIndex = log.firstIndex ∧ log'.lastIndex = log.lastIndex ∧
      WalKv.flat (lead' ++ [active']) = WalKv.flat (lead ++ [active]) ∧
      (ended = .ok () → ∀ c ∈ lead' ++ [active'], c.Synced) ∧
      (log.dir.outcomes = [] → ended = .ok () ∧ log'.dir.outcomes = []) := by
  obtain ⟨chunks', ended, outcomes, same, ran, synced, healthy⟩ := laid.stacked.sync_cases
  obtain ⟨lead', active', rfl, flat, laid'⟩ := laid.moved same outcomes
  exact ⟨lead', active', ended, _, ran, laid', rfl, rfl, flat, synced, healthy⟩

theorem sync_run (laid : log.Laid lead active) (healthy : log.dir.outcomes = []) :
    Log.sync log = (.ok (), log.synced (lead ++ [active])) := by
  obtain ⟨chunks', ended, outcomes, same, ran, synced, none⟩ := laid.stacked.sync_cases
  obtain ⟨rfl, rfl⟩ := none healthy
  obtain ⟨segments, entries⟩ := same.flushed (synced rfl)
  rw [ran, segments, entries, ← healthy]
  rfl

theorem outcomes (laid : log.Laid lead active) (outcomes : List Outcome) :
    Log.Laid { log with dir := { log.dir with outcomes } } lead active :=
  ⟨laid.segments, laid.files, laid.contiguous, laid.positive, laid.last, laid.full, laid.named⟩

end Laid

theorem Stacked.outcomes (stacked : log.Stacked lead active) (outcomes : List Outcome) :
    Log.Stacked { log with dir := { log.dir with outcomes } } lead active :=
  ⟨stacked.segments, stacked.files, stacked.ordered, stacked.below, stacked.full⟩

/-- What differs is that some bytes stand behind the records of the last segment which the
segment does not count. -/
def Ragged (whole : Log) (active : Chunk) (part : Bytes) (log : Log) : Prop :=
  ∃ (file : File) (buffer : Bytes) (outcomes : List Outcome),
    file.content ++ buffer = stream frame active.records ++ part ∧
    file.synced ≤ file.content.length ∧
    log = { whole with
      dir := { whole.dir.setFile active.base file with outcomes }
      segments := whole.segments.dropLast ++ [{ active.segment with buffer }] }

theorem Ragged.indices {whole : Log} {part : Bytes} (ragged : whole.Ragged active part log) :
    log.firstIndex = whole.firstIndex ∧ log.lastIndex = whole.lastIndex := by
  obtain ⟨_, _, _, _, _, rfl⟩ := ragged
  exact ⟨rfl, rfl⟩

/-- Such bytes stand behind the last record of a log that is laid out otherwise. -/
def Frayed (log : Log) (lead : List Chunk) (active : Chunk) (part : Bytes) : Prop :=
  ∃ whole : Log, whole.Laid lead active ∧ whole.Ragged active part log

theorem Frayed.mend {part : Bytes} (frayed : log.Frayed lead active part) (none : part = []) :
    ∃ active', log.Laid lead active' ∧ active'.base = active.base ∧
      active'.records = active.records := by
  obtain ⟨whole, laid, file, buffer, outcomes, total, durable, rfl⟩ := frayed
  rw [none, List.append_nil] at total
  let active' : Chunk := ⟨{ active.segment with buffer }, file, active.records, total, active.bytes,
    active.count, durable, active.fits⟩
  have same : active'.records = active.records ++ [] := (List.append_nil _).symm
  have base : active'.base = active.base := rfl
  exact ⟨active', laid.put base same outcomes, rfl, rfl⟩

/-- An append can take nothing in: the segment that it needs cannot be created, or the writer of
the last one refuses. -/
def Refuses (log : Log) : Prop :=
  ∃ seg ∈ log.segments.getLast?, if log.maxSegmentBytes ≤ seg.bytes ∧ 0 < seg.count then
    log.dir.Fails else Segment.Refuses log.dir seg

instance (log : Log) : Decidable log.Refuses :=
  inferInstanceAs (Decidable (∃ seg ∈ log.segments.getLast?, if log.maxSegmentBytes ≤ seg.bytes ∧
    0 < seg.count then log.dir.Fails else Segment.Refuses log.dir seg))

/-- Where an append goes: to the last segment, or to a new one behind it. -/
def Opened (log : Log) (active : Chunk) (log₁ : Log) (active₁ : Chunk) : Prop :=
  log₁ = log ∧ active₁ = active ∨ active.records ≠ [] ∧
    active₁ = .settled (log.lastIndex + 1) [] fits_nil ∧
    ∃ outcomes, log₁ = { log.rotated with dir := { log.rotated.dir with outcomes } }

theorem Opened.indices {log₁ : Log} {active₁ : Chunk} (opened : log.Opened active log₁ active₁) :
    log₁.firstIndex = log.firstIndex ∧ log₁.lastIndex = log.lastIndex := by
  rcases opened with ⟨rfl, _⟩ | ⟨_, _, _, rfl⟩ <;> exact ⟨rfl, rfl⟩

namespace Stacked

theorem refuses_iff (stacked : log.Stacked lead active) : log.Refuses ↔
    if log.maxSegmentBytes ≤ active.segment.bytes ∧ 0 < active.segment.count then log.dir.Fails
      else Segment.Refuses log.dir active.segment := by
  simp [Refuses, stacked.getLast]

theorem ragged (stacked : log.Stacked lead active) (outcomes : List Outcome) :
    log.Ragged active [] { log with dir := { log.dir with outcomes } } := by
  refine ⟨active.file, active.segment.buffer, outcomes, ?_, active.durable, ?_⟩
  · rw [List.append_nil]
    exact active.written
  · have files : log.dir.setFile active.base active.file = log.dir := by
      rw [Dir.setFile, Keyed.put_self stacked.found_active]
    have segments : log.segments.dropLast ++ [active.segment] = log.segments := by
      simp [stacked.segments]
    calc
      { log with dir := { log.dir with outcomes } } =
          { log with dir := { log.dir with outcomes }, segments := log.segments } := rfl
      _ = { log with
          dir := { log.dir.setFile active.base active.file with outcomes }
          segments := log.segments.dropLast ++ [active.segment] } := by rw [files, segments]

theorem opened {log₁ : Log} {active₁ : Chunk} (stacked : log.Stacked lead active)
    (opened : log.Opened active log₁ active₁) : ∃ lead₁, log₁.Stacked lead₁ active₁ ∧
      (lead₁ = lead ∧ active₁ = active ∨ lead₁ = lead ++ [active] ∧
        active₁ = .settled (log.lastIndex + 1) [] fits_nil) := by
  rcases opened with ⟨rfl, rfl⟩ | ⟨some_record, rfl, outcomes, rfl⟩
  · exact ⟨lead, stacked, .inl ⟨rfl, rfl⟩⟩
  · exact ⟨_, (stacked.rotate some_record).outcomes outcomes, .inr ⟨rfl, rfl⟩⟩

/-- The part of `append` behind the rotation. -/
theorem appendLast_cases (stacked : log.Stacked lead active) (payload : Bytes) (index : Nat) :
    (∃ log', (onLast (Segment.append payload) >>= fun _ => do
          Fallible.modify fun log => { log with lastIndex := log.lastIndex + 1 }
          pure index) log = (.ok index, log') ∧
        log'.firstIndex = log.firstIndex ∧ log'.lastIndex = log.lastIndex + 1 ∧
        (log.dir.outcomes = [] → log'.dir.outcomes = []) ∧
        (payload.length ≤ maxRecordLen → ∃ active' outcomes, active.Grown payload active' ∧
          log' = log.putting active active' 1 outcomes)) ∨
      ∃ stop log' part, (onLast (Segment.append payload) >>= fun _ => do
          Fallible.modify fun log => { log with lastIndex := log.lastIndex + 1 }
          pure index) log = (.error stop, log') ∧
        log.dir.outcomes ≠ [] ∧ (part = [] ↔ Segment.Refuses log.dir active.segment) ∧
        part <+: frame payload ∧ log.Ragged active part log' := by
  obtain ⟨file, part, buffer, outcomes, inside, total, longer, synced, ended⟩ :=
    Segment.append_cases stacked.found_active payload
  rw [active.written] at total
  have durable : file.synced ≤ file.content.length := by
    rw [synced]
    exact active.durable.trans longer.length_le
  rcases ended with ⟨rfl, healthy, ran⟩ | ⟨some, none, stop, ran⟩
  · have appended : onLast (Segment.append payload) log = (.ok (), { log with
        dir := { log.dir.setFile active.base file with outcomes }
        segments := log.segments.dropLast ++ [{ active.segment with
          buffer, bytes := active.segment.bytes + (frame payload).length
          count := active.segment.count + 1 }] }) := by
      simp only [onLast, stacked.getLast, ran]
      rfl
    rw [Fallible.bind_ok appended]
    refine .inl ⟨_, rfl, rfl, rfl, healthy, fun small => ?_⟩
    exact ⟨active.appended payload file buffer total durable small, outcomes, ⟨rfl, rfl, synced⟩, rfl⟩
  · have failed : onLast (Segment.append payload) log = (.error stop, { log with
        dir := { log.dir.setFile active.base file with outcomes }
        segments := log.segments.dropLast ++ [{ active.segment with buffer }] }) := by
      simp only [onLast, stacked.getLast, ran]
      rfl
    rw [Fallible.bind_error failed]
    exact .inr ⟨stop, _, part, rfl, some, none, inside, file, buffer, outcomes, total, durable, rfl⟩

theorem rotate_cases (stacked : log.Stacked lead active) (some_record : active.records ≠ []) :
    ∃ outcomes, ((do let seg ← onDir (Segment.create (log.lastIndex + 1)); push seg) log =
        (.ok (), { log.rotated with dir := { log.rotated.dir with outcomes } }) ∧
        ¬ log.dir.Fails ∧ (log.dir.outcomes = [] → outcomes = [])) ∨
      log.dir.Fails ∧ ∃ stop,
        (do let seg ← onDir (Segment.create (log.lastIndex + 1)); push seg) log =
          (.error stop, { log with dir := { log.dir with outcomes } }) := by
  rcases Dir.attempt_cases log.dir with ⟨outcomes, ready, none⟩ | ⟨stop, outcomes, stopped, _⟩
  · refine ⟨outcomes, .inl ⟨?_, ready.not_fails, none⟩⟩
    simp only [Fallible.bind_run, onDir, Fallible.part_run, Segment.create, Fallible.pure_run, push,
      Dir.createNew_run ready (stacked.unused some_record), Fallible.modify_run, rotated]
  · refine ⟨outcomes, .inr ⟨Dir.fails_of_stopped stopped, stop, ?_⟩⟩
    simp only [Fallible.bind_run, onDir, Fallible.part_run, Segment.create, Dir.createNew, stopped]

theorem rotated_accepts (dir : Dir) (base : Nat) :
    ¬ Segment.Refuses dir (Chunk.settled base [] fits_nil).segment := by
  rintro ⟨full, _⟩
  have full : bufferCapacity < 0 + 4 := full
  exact absurd full (by decide)

/-- How an append may end: with one more record, or with the records there were and, unless the
log refuses, a front part of the new frame behind them. -/
theorem append_cases (stacked : log.Stacked lead active) (payload : Bytes) :
    (∃ log', Log.append payload log = (.ok (log.lastIndex + 1), log') ∧
        log'.firstIndex = log.firstIndex ∧ log'.lastIndex = log.lastIndex + 1 ∧
        (log.dir.outcomes = [] → log'.dir.outcomes = []) ∧
        (payload.length ≤ maxRecordLen → ∃ log₁ active₁ active' outcomes,
          log.Opened active log₁ active₁ ∧ active₁.Grown payload active' ∧
          log' = log₁.putting active₁ active' 1 outcomes)) ∨
      ∃ stop log' part log₁ active₁, Log.append payload log = (.error stop, log') ∧
        log.dir.outcomes ≠ [] ∧ (part = [] ↔ log.Refuses) ∧ part <+: frame payload ∧
        log.Opened active log₁ active₁ ∧ log₁.Ragged active₁ part log' := by
  have refuses := stacked.refuses_iff
  rw [Log.append, Fallible.bind_ok (Fallible.get_run log), stacked.getLast]
  by_cases full : log.maxSegmentBytes ≤ active.segment.bytes ∧ 0 < active.segment.count
  · have some_record : active.records ≠ [] := by
      rw [active.count] at full
      exact List.length_pos_iff.mp full.2
    rw [if_pos full] at refuses
    simp only [Fallible.when, if_pos full]
    obtain ⟨outcomes, ⟨rotated, created, none⟩ | ⟨fails, stop, failed⟩⟩ :=
      stacked.rotate_cases some_record
    · rw [Fallible.bind_ok rotated]
      have opened : log.Opened active { log.rotated with dir := { log.rotated.dir with outcomes } }
          (.settled (log.lastIndex + 1) [] fits_nil) := .inr ⟨some_record, rfl, outcomes, rfl⟩
      rcases ((stacked.rotate some_record).outcomes outcomes).appendLast_cases payload
          (log.lastIndex + 1) with
        ⟨log', ran, first, last, healthy, grows⟩ | ⟨stop, log', part, ran, some, taken, rest⟩
      · refine .inl ⟨log', ran, first, last, fun nothing => healthy (none nothing), fun small => ?_⟩
        obtain ⟨active', outcomes', grown, same⟩ := grows small
        exact ⟨_, _, active', outcomes', opened, grown, same⟩
      · exact .inr ⟨stop, log', part, _, _, ran, fun nothing => some (none nothing),
          (taken.trans (iff_of_false (rotated_accepts _ _) created)).trans refuses.symm, rest.1,
          opened, rest.2⟩
    · rw [Fallible.bind_error failed]
      exact .inr ⟨stop, _, [], log, active, rfl, fails.unhealthy, iff_of_true rfl (refuses.mpr fails),
        List.nil_prefix, .inl ⟨rfl, rfl⟩, stacked.ragged outcomes⟩
  · rw [if_neg full] at refuses
    simp only [Fallible.when, if_neg full]
    rw [Fallible.bind_ok (Fallible.pure_run () log)]
    rcases stacked.appendLast_cases payload (log.lastIndex + 1) with
      ⟨log', ran, first, last, healthy, grows⟩ | ⟨stop, log', part, ran, some, taken, rest⟩
    · refine .inl ⟨log', ran, first, last, healthy, fun small => ?_⟩
      obtain ⟨active', outcomes, grown, same⟩ := grows small
      exact ⟨log, active, active', outcomes, .inl ⟨rfl, rfl⟩, grown, same⟩
    · exact .inr ⟨stop, log', part, log, active, ran, some, taken.trans refuses.symm, rest.1,
        .inl ⟨rfl, rfl⟩, rest.2⟩

end Stacked

namespace Laid

theorem frayed (laid : log.Laid lead active) : log.Frayed lead active [] :=
  ⟨log, laid, laid.stacked.ragged log.dir.outcomes⟩

theorem opened {log₁ : Log} {active₁ : Chunk} (laid : log.Laid lead active)
    (opened : log.Opened active log₁ active₁) : ∃ lead₁, log₁.Laid lead₁ active₁ ∧
      flat (lead₁ ++ [active₁]) = flat (lead ++ [active]) ∧
      (lead₁ = lead ∧ active₁ = active ∨
        lead₁ = lead ++ [active] ∧ active₁.base = log.lastIndex + 1) := by
  rcases opened with ⟨rfl, rfl⟩ | ⟨some_record, rfl, outcomes, rfl⟩
  · exact ⟨lead, laid, rfl, .inl ⟨rfl, rfl⟩⟩
  · refine ⟨_, (laid.rotate some_record).outcomes outcomes, ?_, .inr ⟨rfl, rfl⟩⟩
    rw [flat_append (lead ++ [active])]
    exact List.append_nil _

/-- The records stay in line, with the new one behind them or without it. -/
theorem append_cases (laid : log.Laid lead active) (payload : Bytes) :
    (∃ log', Log.append payload log = (.ok (log.lastIndex + 1), log') ∧
        log'.firstIndex = log.firstIndex ∧ log'.lastIndex = log.lastIndex + 1 ∧
        (log.dir.outcomes = [] → log'.dir.outcomes = []) ∧
        (payload.length ≤ maxRecordLen → ∃ lead' active', log'.Laid lead' active' ∧
          flat (lead' ++ [active']) = flat (lead ++ [active]) ++ [payload] ∧
          (lead' = lead ∧ active.Grown payload active' ∨
            lead' = lead ++ [active] ∧ active'.base = log.lastIndex + 1))) ∨
      ∃ stop log' lead' active' part, Log.append payload log = (.error stop, log') ∧
        log.dir.outcomes ≠ [] ∧ (part = [] ↔ log.Refuses) ∧ log'.Frayed lead' active' part ∧
        log'.firstIndex = log.firstIndex ∧ log'.lastIndex = log.lastIndex ∧
        flat (lead' ++ [active']) = flat (lead ++ [active]) := by
  rcases laid.stacked.append_cases payload with
    ⟨log', ran, first, last, healthy, grows⟩ |
      ⟨stop, log', part, log₁, active₁, ran, some, none, _, opened, ragged⟩
  · refine .inl ⟨log', ran, first, last, healthy, fun small => ?_⟩
    obtain ⟨log₁, active₁, active', outcomes, opened, grown, rfl⟩ := grows small
    obtain ⟨lead₁, laid₁, same, place⟩ := laid.opened opened
    refine ⟨lead₁, active', laid₁.put grown.base grown.records outcomes, ?_, ?_⟩
    · rw [← same, flat_append, flat_append, flat_cons, flat_cons, flat_nil, List.append_nil,
        List.append_nil, grown.records, List.append_assoc]
    · rcases place with ⟨rfl, rfl⟩ | ⟨rfl, base⟩
      · exact .inl ⟨rfl, grown⟩
      · exact .inr ⟨rfl, grown.base.trans base⟩
  · obtain ⟨lead₁, laid₁, same, _⟩ := laid.opened opened
    have ends := ragged.indices
    exact .inr ⟨stop, log', lead₁, active₁, part, ran, some, none, ⟨log₁, laid₁, ragged⟩,
      ends.1.trans opened.indices.1, ends.2.trans opened.indices.2, same⟩

theorem append (laid : log.Laid lead active) (healthy : log.dir.outcomes = [])
    (small : payload.length ≤ maxRecordLen) : ∃ log' lead' active',
      Log.append payload log = (.ok (log.lastIndex + 1), log') ∧ log'.Laid lead' active' ∧
      log'.dir.outcomes = [] ∧ log'.firstIndex = log.firstIndex ∧
      flat (lead' ++ [active']) = flat (lead ++ [active]) ++ [payload] ∧
      (lead' = lead ∧ active.Grown payload active' ∨
        lead' = lead ++ [active] ∧ active'.base = log.lastIndex + 1) := by
  rcases laid.append_cases payload with ⟨log', ran, first, _, none, grows⟩ | ⟨_, _, _, _, _, _, some, _⟩
  · obtain ⟨lead', active', laid', records, place⟩ := grows small
    exact ⟨log', lead', active', ran, laid', none healthy, first, records, place⟩
  · exact absurd healthy some

end Laid
end Log
end WalKv
