import WalKv.Wal.Layout

/-! Cutting a log at either end. For its end, trailing segments are deleted from the
last one on, then the segment the cut falls into is read, deleted, created anew and
written again. For its front, whole segments are deleted from the first one on.
Whatever the operations end in, the files are those of one of these stages. -/
namespace WalKv
open Framing (stream)

namespace Dir
variable {dir : Dir}

/-- The next `n` operations go well. -/
def GoesWell (n : Nat) (outcomes : List Outcome) : Prop :=
  ∀ outcome ∈ outcomes.take n, outcome = .done

theorem attempt_goes (dir : Dir) :
    (Ready dir (dir.outcomes.drop 1) ∧
      ∀ n, GoesWell (n + 1) dir.outcomes ↔ GoesWell n (dir.outcomes.drop 1)) ∨
    ∃ stop outcomes, attempt dir = (.error stop, { dir with outcomes }) ∧
      ∀ n, ¬ GoesWell (n + 1) dir.outcomes := by
  rcases next : dir.outcomes with _ | ⟨_ | ⟨written, msg⟩ | _, rest⟩
  · refine Or.inl ⟨?_, fun n => ?_⟩
    · exact ready_nil next
    · simp [GoesWell]
  · exact Or.inl ⟨by simp [Ready, attempt, next], fun n => by simp [GoesWell]⟩
  · exact Or.inr ⟨.err (.io msg), rest, by simp only [attempt, next], fun n => by simp [GoesWell]⟩
  · exact Or.inr ⟨.crashed, rest, by simp only [attempt, next], fun n => by simp [GoesWell]⟩

theorem goesWell_add (m n : Nat) (outcomes : List Outcome) :
    GoesWell (m + n) outcomes ↔ GoesWell m outcomes ∧ GoesWell n (outcomes.drop m) := by
  simp only [GoesWell, List.take_add, List.forall_mem_append]

theorem goesWell_nil (n : Nat) : GoesWell n [] := by
  simp [GoesWell]

end Dir

variable [Checksum] {log : Log} {front kept trailing lead : List Chunk} {active c : Chunk}
  {keepLast : Nat}

theorem split_at_cut (keepLast : Nat) {chunks : List Chunk} (some_chunk : chunks ≠ []) :
    ∃ front c trailing, chunks = front ++ [c] ++ trailing ∧ (∀ t ∈ trailing, keepLast < t.base) ∧
      (front = [] ∨ c.base ≤ keepLast) := by
  induction chunks using List.reverseRecOn with
  | nil => contradiction
  | append_singleton chunks x ih =>
    by_cases past : keepLast < x.base ∧ chunks ≠ []
    · obtain ⟨front, c, trailing, rfl, behind, before⟩ := ih past.2
      refine ⟨front, c, trailing ++ [x], by simp, ?_, before⟩
      intro t member
      rcases List.mem_append.mp member with old | new
      · exact behind t old
      · rw [List.mem_singleton.mp new]
        exact past.1
    · refine ⟨chunks, x, [], (List.append_nil _).symm, nofun, ?_⟩
      by_cases empty : chunks = []
      · exact Or.inl empty
      · exact Or.inr (Nat.le_of_not_lt fun above => past ⟨above, empty⟩)

theorem mem_front {lead front trailing : List Chunk} {active c x : Chunk}
    (split : lead ++ [active] = front ++ [c] ++ trailing) (member : x ∈ front) : x ∈ lead := by
  cases trailing using List.reverseRecOn with
  | nil =>
    rw [List.append_nil] at split
    exact (List.append_inj_left' split rfl) ▸ member
  | append_singleton trailing t =>
    rw [← List.append_assoc] at split
    rw [List.append_inj_left' split rfl]
    simp [member]

namespace Log

/-- The directory holds the files of these segments, one of which may have been dropped. -/
structure Cut (log log' : Log) (chunks : List Chunk) : Prop where
  files : ∃ chunks', List.Forall₂ Chunk.Spilled chunks chunks' ∧
    log'.dir.files = chunks'.map Chunk.entry
  named : log'.dir.malformed = log.dir.malformed
  segments : log'.segments ⊆ log.segments

theorem Cut.of_files {log' : Log} {chunks : List Chunk}
    (files : log'.dir.files = chunks.map Chunk.entry)
    (named : log'.dir.malformed = log.dir.malformed) (segments : log'.segments ⊆ log.segments) :
    log.Cut log' chunks :=
  ⟨⟨chunks, List.forall₂_same.mpr fun c _ => .refl c, files⟩, named, segments⟩

theorem Cut.of_fewer {log' : Log} {chunks : List Chunk} {segments : List Segment}
    (fewer : segments ⊆ log.segments) (cut : { log with segments }.Cut log' chunks) :
    log.Cut log' chunks :=
  ⟨cut.files, cut.named, List.Subset.trans cut.segments fewer⟩

theorem Cut.files_synced {log' : Log} {chunks : List Chunk} (cut : log.Cut log' chunks)
    (synced : ∀ c ∈ chunks, c.Synced) : log'.dir.files = chunks.map Chunk.entry := by
  obtain ⟨chunks', spilled, files⟩ := cut.files
  rw [files]
  clear cut files
  induction spilled with
  | nil => rfl
  | cons first _ ih =>
    rw [List.map_cons, List.map_cons, first.entry_eq (synced _ List.mem_cons_self),
      ih fun x member => synced x (List.mem_cons_of_mem _ member)]

theorem remove_chunk (log : Log) {before after : List Chunk}
    (files : log.dir.files = (before ++ c :: after).map Chunk.entry)
    (distinct : (log.dir.files.map Prod.fst).Nodup) :
    (∀ outcomes, log.dir.Ready outcomes →
      onDir c.segment.remove log = (.ok (), { log with dir := { log.dir with
        files := (before ++ after).map Chunk.entry, outcomes } })) ∧
    ∀ stop outcomes, Dir.attempt log.dir = (.error stop, { log.dir with outcomes }) →
      ∃ stop' log', onDir c.segment.remove log = (.error stop', log') ∧
        log.Cut log' (before ++ c :: after) := by
  have found : log.dir.find c.segment.baseIndex = some c.file := find_entry files distinct (by simp)
  have removed : log.dir.files.filter (·.1 ≠ c.segment.baseIndex) =
      (before ++ after).map Chunk.entry := by
    rw [List.map_append, List.map_cons] at files
    have absent := Dir.absent_before files distinct
    rw [files, List.map_append, List.map_cons, List.nodup_middle, List.nodup_cons, List.mem_append,
      not_or] at distinct
    rw [files, List.map_append]
    exact Keyed.remove_middle absent distinct.1.2
  constructor
  · intro outcomes ready
    simp only [onDir, Fallible.part_run, Segment.remove, Dir.removeFile_run ready found, removed]
  · intro stop outcomes stopped
    have there : Dir.find c.base { log.dir with outcomes } = some c.file := found
    obtain ⟨stop', c', outcomes', spilled, dropped⟩ := c.abandon_spilled there stop
    have refused : c.segment.remove log.dir =
        (.error stop', { log.dir.setFile c.base c'.file with outcomes := outcomes' }) := by
      simp only [Segment.remove, Dir.removeFile, Fallible.bind_error (Dir.existing_stopped stopped)]
      exact dropped
    rw [onDir, Fallible.part_run, refused]
    refine ⟨stop', _, rfl, ⟨before ++ c' :: after, ?_, ?_⟩, rfl, List.Subset.refl _⟩
    · have same (chunks : List Chunk) : List.Forall₂ Chunk.Spilled chunks chunks :=
        List.forall₂_same.mpr fun x _ => .refl x
      exact List.rel_append (same before) (.cons spilled (same after))
    · rw [List.map_append, List.map_cons] at files
      have placed := Dir.setFile_middle files distinct c'.file
      rw [placed, List.map_append, List.map_cons, Chunk.entry, spilled.base, List.append_assoc]
      rfl

/-- The log with these segments and their files. -/
def holding (log : Log) (chunks : List Chunk) (outcomes : List Outcome) : Log :=
  { log with
    segments := chunks.map Chunk.segment
    dir := { log.dir with files := chunks.map Chunk.entry, outcomes } }

theorem dropTrailing_step (fuel : Nat) {log : Log} {chunks : List Chunk} {t : Chunk}
    (segments : log.segments = (chunks ++ [t]).map Chunk.segment) (several : chunks ≠ [])
    (past : keepLast < t.base) : dropTrailing keepLast (fuel + 1) log =
      (onDir t.segment.remove >>= fun _ => dropTrailing keepLast fuel)
        { log with segments := chunks.map Chunk.segment } := by
  have last : log.segments.getLast? = some t.segment := by
    rw [segments, List.map_append]
    exact List.getLast?_concat
  have goes : 1 < log.segments.length ∧ keepLast < t.segment.baseIndex := by
    refine ⟨?_, past⟩
    have := List.length_pos_iff.mpr several
    rw [segments, List.length_map, List.length_append, List.length_singleton]
    omega
  have popped : pop log = (.ok (), { log with segments := chunks.map Chunk.segment }) := by
    have shorter : log.segments.dropLast = chunks.map Chunk.segment := by
      rw [segments, List.map_append]
      exact List.dropLast_concat
    rw [← shorter]
    rfl
  simp only [dropTrailing, Fallible.bind_run, Fallible.get_run, last, if_pos goes, popped]

theorem dropTrailing_run {log : Log}
    (segments : log.segments = (front ++ [c] ++ trailing).map Chunk.segment)
    (files : log.dir.files = (front ++ [c] ++ trailing).map Chunk.entry)
    (distinct : (log.dir.files.map Prod.fst).Nodup) (past : ∀ t ∈ trailing, keepLast < t.base)
    (stays : front = [] ∨ c.base ≤ keepLast) {fuel : Nat} (enough : trailing.length < fuel) :
    (Dir.GoesWell trailing.length log.dir.outcomes ∧ dropTrailing keepLast fuel log =
      (.ok (), log.holding (front ++ [c]) (log.dir.outcomes.drop trailing.length))) ∨
    ∃ stop log' part, ¬ Dir.GoesWell trailing.length log.dir.outcomes ∧
      dropTrailing keepLast fuel log = (.error stop, log') ∧ part <+: trailing ∧
      log.Cut log' (front ++ [c] ++ part) := by
  induction trailing using List.reverseRecOn generalizing log fuel with
  | nil =>
    obtain ⟨fuel, rfl⟩ := Nat.exists_eq_succ_of_ne_zero (Nat.ne_of_gt enough)
    rw [List.append_nil] at segments files
    have last : log.segments.getLast? = some c.segment := by
      simp [segments]
    have stop : ¬ (1 < log.segments.length ∧ keepLast < c.segment.baseIndex) := by
      rintro ⟨several, above⟩
      rcases stays with rfl | below
      · rw [segments, List.length_map] at several
        exact absurd several (by simp)
      · exact absurd above (Nat.not_lt.mpr below)
    refine Or.inl ⟨by simp [Dir.GoesWell], ?_⟩
    simp only [dropTrailing, Fallible.bind_run, Fallible.get_run, last, if_neg stop,
      Fallible.pure_run]
    rw [holding, ← segments, ← files]
    rfl
  | append_singleton trailing t ih =>
    obtain ⟨fuel, rfl⟩ := Nat.exists_eq_succ_of_ne_zero (Nat.ne_of_gt (Nat.zero_lt_of_lt enough))
    rw [← List.append_assoc] at segments files
    have fewer : (front ++ [c] ++ trailing).map Chunk.segment ⊆ log.segments := by
      rw [segments]
      exact List.map_subset _ (List.subset_append_left _ _)
    have size : (trailing ++ [t]).length = trailing.length + 1 := List.length_append
    obtain ⟨removed, refused⟩ := remove_chunk
      { log with segments := (front ++ [c] ++ trailing).map Chunk.segment } files distinct
    rw [List.append_nil] at removed
    rw [dropTrailing_step fuel segments (by simp) (past t (by simp)), size]
    rcases Dir.attempt_goes log.dir with ⟨ready, counts⟩ | ⟨stop, outcomes, stopped, never⟩
    · rw [Fallible.bind_ok (removed _ ready), counts]
      have distinct' : ((((front ++ [c] ++ trailing).map Chunk.entry)).map Prod.fst).Nodup := by
        rw [files, List.map_append, List.map_append] at distinct
        exact (List.nodup_append.mp distinct).1
      have fuel_left : trailing.length < fuel := by
        rw [size] at enough
        omega
      have there : (log.holding (front ++ [c] ++ trailing) (log.dir.outcomes.drop 1)).segments =
        (front ++ [c] ++ trailing).map Chunk.segment := rfl
      rcases ih there rfl distinct' (fun x member => past x (List.mem_append_left _ member))
        fuel_left with ⟨well, ran⟩ | ⟨stop, log', part, bad, ran, inside, cut⟩
      · refine Or.inl ⟨well, ran.trans ?_⟩
        simp only [holding, List.drop_drop, Nat.add_comm 1]
      · exact Or.inr ⟨stop, log', part, bad, ran, inside.trans (List.prefix_append _ _), cut.files,
          cut.named, List.Subset.trans cut.segments fewer⟩
    · obtain ⟨stop', log', ended, cut⟩ := refused stop _ stopped
      refine Or.inr ⟨stop', log', trailing ++ [t], never _, Fallible.bind_error ended,
        List.prefix_rfl, ?_⟩
      rw [← List.append_assoc]
      exact cut.of_fewer fewer

/-- Write a new segment and sync it. -/
def refill (records : List Bytes) (fresh : Segment) : Method Segment := do
  let fresh ← onFresh (appendAll records) fresh
  onFresh Segment.sync fresh

/-- Create a segment anew and fill it. -/
def regrow (base : Nat) (records : List Bytes) : Method Unit := do
  let fresh ← onDir (Segment.create base)
  let fresh ← refill records fresh
  push fresh

section Fresh
variable {m : Segment.Method Unit} {seg seg' : Segment} {log : Log} {dir : Dir}

omit [Checksum] in
theorem onFresh_ok (ran : m (log.dir, seg) = (.ok (), dir, seg')) :
    onFresh m seg log = (.ok seg', { log with dir }) := by
  simp only [onFresh, ran]

theorem onFresh_error {c : Chunk} {records : List Bytes} {stop : Stop} {file : File}
    (left : c.Left log.dir records (.error stop, dir, seg') file)
    (found : log.dir.find c.base = some c.file) (ran : m (log.dir, seg) = (.error stop, dir, seg')) :
    ∃ stop' file' outcomes, onFresh m seg log =
        (.error stop', { log with dir := { log.dir.setFile c.base file' with outcomes } }) ∧
      file'.content <+: stream frame records := by
  have there : dir.find seg'.baseIndex = some file := by
    rw [left.base]
    exact left.found found
  obtain ⟨stop', t, file', dropped, wrote⟩ := Segment.abandon_writes (α := Segment) there stop
  have total := wrote.total
  rw [List.append_nil] at total
  refine ⟨stop', file', t.1.outcomes, ?_, (List.prefix_append _ _).trans (total ▸ left.within)⟩
  have only : t.1 = { log.dir.setFile c.base file' with outcomes := t.1.outcomes } := by
    have base : seg'.baseIndex = c.base := left.base
    have before : dir = { log.dir.setFile c.base file with outcomes := dir.outcomes } := left.only
    rw [wrote.dir, base, before]
    simp only [Dir.setFile, Keyed.put_put]
  simp only [onFresh, ran, dropped]
  rw [← only]

end Fresh

/-- However far it gets, the new file holds a front part of the records' frames. -/
theorem refill_run (log : Log) {records : List Bytes} {base : Nat} {files : List (Nat × File)}
    (there : log.dir.files = files ++ [(base, ⟨[], 0⟩)]) (absent : base ∉ files.map Prod.fst)
    (fits : Fits records) : ∃ file outcomes,
      (refill records ⟨base, [], 0, 0⟩ log).2 = { log with dir := { log.dir with
        files := files ++ [(base, file)], outcomes } } ∧
      file.content <+: stream frame records ∧
      (∀ seg, (refill records ⟨base, [], 0, 0⟩ log).1 = .ok seg → ∃ c : Chunk, c.Synced ∧
        c.segment = seg ∧ c.file = file ∧ c.records = records ∧ c.base = base) ∧
      (log.dir.outcomes = [] →
        outcomes = [] ∧ ∃ seg, (refill records ⟨base, [], 0, 0⟩ log).1 = .ok seg) := by
  have placed (file : File) : Keyed.put base file log.dir.files = files ++ [(base, file)] := by
    rw [there]
    exact Keyed.put_middle absent
  let first : Chunk := .settled base [] fits_nil
  have found : log.dir.find first.base = some first.file := by
    rw [Dir.find, there]
    exact Keyed.lookup_middle absent
  obtain ⟨file, _, left⟩ := first.appendAll_left found records fits
  rcases ran : appendAll records (log.dir, first.segment) with ⟨stop | ⟨⟩, dir, seg⟩ <;>
    rw [ran] at left
  · obtain ⟨stop', file', outcomes, dropped, inside⟩ := onFresh_error left found ran
    have stopped : refill records ⟨base, [], 0, 0⟩ log = _ := Fallible.bind_error dropped
    rw [stopped]
    refine ⟨file', outcomes, ?_, inside, by simp, fun none => absurd (left.healthy none).1 (by simp)⟩
    rw [← placed]
    rfl
  · have continued : refill records ⟨base, [], 0, 0⟩ log =
        onFresh Segment.sync seg { log with dir } := Fallible.bind_ok (onFresh_ok ran)
    rw [continued]
    have only : dir = { log.dir with
        files := Keyed.put base file log.dir.files, outcomes := dir.outcomes } := left.only
    obtain ⟨c, segment, same, grown, at_base⟩ := left.done rfl
    have found' := left.found found
    rw [← same, ← at_base] at found'
    obtain ⟨file', left', durable⟩ := c.sync_left found'
    have here : c.base = base := at_base
    have later (file' : File) (outcomes : List Outcome) :
        { dir.setFile c.base file' with outcomes } =
          { log.dir with files := files ++ [(base, file')], outcomes } := by
      rw [here, only, ← placed]
      simp only [Dir.setFile, Keyed.put_put]
    rw [segment, grown] at left'
    rw [segment] at durable
    rcases ran' : Segment.sync (dir, seg) with ⟨stop | ⟨⟩, dir', seg'⟩ <;> rw [ran'] at left' durable
    · obtain ⟨stop', file'', outcomes, dropped, inside⟩ := onFresh_error
        (show c.Left { log with dir }.dir _ _ file' from left') found' ran'
      rw [dropped]
      refine ⟨file'', outcomes, ?_, inside, by simp, fun none => ?_⟩
      · rw [later]
      · cases (left'.healthy (left.healthy none).2).1
    · rw [onFresh_ok (show Segment.sync ({ log with dir }.dir, seg) = _ from ran')]
      refine ⟨file', dir'.outcomes, ?_, left'.inside, ?_, fun none => ?_⟩
      · have only' : dir' = { dir.setFile c.base file' with outcomes := dir'.outcomes } := left'.only
        rw [later] at only'
        rw [← only']
      · rintro _ ⟨⟩
        obtain ⟨c', segment', same', grown', at_base'⟩ := left'.done rfl
        obtain ⟨flushed, all⟩ := durable rfl
        exact ⟨c', ⟨segment' ▸ flushed, same' ▸ all⟩, segment', same', grown', at_base'.trans here⟩
      · exact ⟨(left'.healthy (left.healthy none).2).2, seg', rfl⟩

/-- What is there once the segment the cut falls into has been deleted: perhaps its
file again, with a front part of what is to be kept. -/
structure Regrown (log : Log) (front : List Chunk) (base : Nat) (records : List Bytes)
    (ended : Except Stop Unit × Log) : Prop where
  files : ∃ again : Option File,
    ended.2.dir.files = front.map Chunk.entry ++ (again.map (base, ·)).toList ∧
      ∀ file ∈ again, file.content <+: stream frame records
  named : ended.2.dir.malformed = log.dir.malformed
  flushed : (∀ c ∈ front, c.Synced) → ∀ seg ∈ ended.2.segments, seg.buffer = []
  done : ended.1 = .ok () → ∃ c outcomes, c.Synced ∧ c.records = records ∧ c.base = base ∧
    ended.2 = log.holding (front ++ [c]) outcomes
  healthy : log.dir.outcomes = [] → ended.1 = .ok () ∧ ended.2.dir.outcomes = []

theorem regrow_run {log : Log} {records : List Bytes} {base : Nat}
    (segments : log.segments = front.map Chunk.segment)
    (files : log.dir.files = front.map Chunk.entry) (absent : base ∉ log.dir.files.map Prod.fst)
    (fits : Fits records) : log.Regrown front base records (regrow base records log) := by
  have flushed (synced : ∀ c ∈ front, c.Synced) : ∀ seg ∈ log.segments, seg.buffer = [] := by
    rw [segments]
    intro seg member
    obtain ⟨c, inside, rfl⟩ := List.mem_map.mp member
    exact (synced c inside).1
  rcases Dir.attempt_cases log.dir with ⟨outcomes, ready, still⟩ | ⟨stop, outcomes, stopped, unhealthy⟩
  · have missing : log.dir.find base = none := Keyed.lookup_absent absent
    have created : onDir (Segment.create base) log = (.ok ⟨base, [], 0, 0⟩, { log with dir :=
        { log.dir with outcomes, files := log.dir.files ++ [(base, ⟨[], 0⟩)] } }) := by
      simp only [onDir, Fallible.part_run, Segment.create, Fallible.bind_run,
        Dir.createNew_run ready missing, Fallible.pure_run]
    rw [regrow, Fallible.bind_ok created]
    obtain ⟨file, outcomes', only, inside, finished, healthy⟩ := refill_run { log with dir :=
      { log.dir with outcomes, files := log.dir.files ++ [(base, ⟨[], 0⟩)] } } rfl absent fits
    rcases ended : refill records ⟨base, [], 0, 0⟩ { log with dir := { log.dir with
        outcomes, files := log.dir.files ++ [(base, ⟨[], 0⟩)] } } with ⟨stop | seg, log'⟩
    · rw [ended] at only healthy
      subst only
      rw [Fallible.bind_error ended]
      refine ⟨⟨file, by rw [files]; rfl, ?_⟩, rfl, flushed, by simp, fun healthy' => ?_⟩
      · rintro _ ⟨⟩
        exact inside
      · obtain ⟨_, seg, success⟩ := healthy (still healthy')
        cases success
    · rw [ended] at only healthy finished
      subst only
      rw [Fallible.bind_ok ended]
      obtain ⟨c, durable, rfl, rfl, grown, rfl⟩ := finished seg rfl
      refine ⟨⟨c.file, by rw [files]; rfl, ?_⟩, rfl, ?_, fun _ => ⟨c, outcomes', durable, grown, rfl, ?_⟩,
        fun healthy' => ⟨rfl, (healthy (still healthy')).1⟩⟩
      · rintro _ ⟨⟩
        exact inside
      · intro synced seg member
        rcases List.mem_append.mp member with old | new
        · exact flushed synced seg old
        · rw [List.mem_singleton.mp new]
          exact durable.1
      · simp only [push, Fallible.modify_run, holding, List.map_append, segments, files]
        rfl
  · have refused : onDir (Segment.create base) log =
        (.error stop, { log with dir := { log.dir with outcomes } }) := by
      simp only [onDir, Fallible.part_run, Segment.create, Dir.createNew, Fallible.bind_run, stopped]
    rw [regrow, Fallible.bind_error refused]
    exact ⟨⟨none, by simpa using files, by simp⟩, rfl, flushed, by simp,
      fun healthy => absurd healthy unhealthy⟩

/-- The segment is intact until its file has been read and deleted. -/
theorem rewriteLast_run (log : Log) (segments : log.segments = (front ++ [c]).map Chunk.segment)
    (files : log.dir.files = (front ++ [c]).map Chunk.entry)
    (distinct : (log.dir.files.map Prod.fst).Nodup) (synced : ∀ x ∈ front ++ [c], x.Synced)
    (keepLast : Nat) :
    (¬ Dir.GoesWell 2 log.dir.outcomes ∧ ∃ stop log',
      rewriteLast keepLast log = (.error stop, log') ∧ log.Cut log' (front ++ [c])) ∨
    (Dir.GoesWell 2 log.dir.outcomes ∧ rewriteLast keepLast log = regrow c.base
        (c.records.take (keepLast + 1 - c.base)) (log.holding front (log.dir.outcomes.drop 2)) ∧
      log.Regrown front c.base (c.records.take (keepLast + 1 - c.base))
        (rewriteLast keepLast log)) := by
  have last : log.segments.getLast? = some c.segment := by
    rw [segments, List.map_append]
    exact List.getLast?_concat
  have shorter : log.segments.dropLast = front.map Chunk.segment := by
    rw [segments, List.map_append]
    exact List.dropLast_concat
  have durable := synced c (by simp)
  have found : log.dir.find c.segment.baseIndex = some c.file := find_entry files distinct (by simp)
  have apart : c.base ∉ (front.map Chunk.entry).map Prod.fst := by
    rw [List.map_append] at files
    exact Dir.absent_before files distinct
  rcases Dir.attempt_goes log.dir with ⟨ready, counts⟩ | ⟨stop, outcomes, stopped, never⟩
  · have read : onDir c.segment.iter log = (.ok (c.records.map .ok), { log with
        dir := { log.dir with outcomes := log.dir.outcomes.drop 1 } }) := by
      simp only [onDir, Fallible.part_run, Segment.iter_run ready found durable.content c.fits]
    let popped : Log := { log with
      dir := { log.dir with outcomes := log.dir.outcomes.drop 1 }
      segments := front.map Chunk.segment }
    have begun : rewriteLast keepLast log = (do
        onDir c.segment.remove
        regrow c.base (c.records.take (keepLast + 1 - c.base)) : Method Unit) popped := by
      have kept : survivors keepLast c.segment.baseIndex (c.records.map .ok) = _ :=
        survivors_ok keepLast c.base c.records
      simp only [regrow, refill, Fallible.bind_assoc]
      simp only [rewriteLast, Fallible.bind_run, Fallible.get_run, last, read, kept,
        Except.mapError, Fallible.lift_run, pop, Fallible.modify_run, shorter]
      rfl
    obtain ⟨removed, refused⟩ := remove_chunk popped files distinct
    rw [List.append_nil] at removed
    rw [begun, counts]
    rcases Dir.attempt_goes popped.dir with ⟨ready', counts'⟩ | ⟨stop, outcomes, stopped, never⟩
    · have grown : (log.holding front (log.dir.outcomes.drop 2)).Regrown front c.base
          (c.records.take (keepLast + 1 - c.base)) (regrow c.base
            (c.records.take (keepLast + 1 - c.base)) (log.holding front (log.dir.outcomes.drop 2))) :=
        regrow_run rfl rfl apart fun x member => c.fits x (List.mem_of_mem_take member)
      rw [Fallible.bind_ok (removed _ ready')]
      have drops : popped.dir.outcomes.drop 1 = log.dir.outcomes.drop 2 := List.drop_drop
      rw [drops]
      refine Or.inr ⟨(counts' 0).mpr (by simp [Dir.GoesWell]), rfl, ?_⟩
      exact ⟨grown.files, grown.named, grown.flushed, grown.done, fun healthy => grown.healthy (by
        rw [holding, healthy]; rfl)⟩
    · obtain ⟨stop', log', ended, cut⟩ := refused stop _ stopped
      refine Or.inl ⟨never 0, stop', log', Fallible.bind_error ended, cut.files, cut.named,
        List.Subset.trans cut.segments ?_⟩
      rw [segments, List.map_append]
      exact (List.prefix_append _ _).subset
  · refine Or.inl ⟨never 1, stop, { log with dir := { log.dir with outcomes } }, ?_,
      .of_files files rfl (List.Subset.refl _)⟩
    simp only [rewriteLast, Fallible.bind_run, Fallible.get_run, last, onDir, Fallible.part_run,
      Segment.iter, Dir.read, Dir.existing_stopped stopped]

namespace Laid

theorem kept_distinct (laid : log.Laid lead active)
    (split : lead ++ [active] = front ++ [c] ++ trailing) :
    (((front ++ [c]).map Chunk.entry).map Prod.fst).Nodup := by
  have distinct := laid.distinct
  rw [laid.files, split, List.map_append, List.map_append] at distinct
  exact (List.nodup_append.mp distinct).1

/-- A truncation first deletes the files behind the segment that the cut falls into. -/
theorem truncateSuffix_begins (laid : log.Laid lead active) (accepted : log.firstIndex ≤ keepLast + 1)
    (cut : keepLast < log.lastIndex) (split : lead ++ [active] = front ++ [c] ++ trailing)
    (past : ∀ t ∈ trailing, keepLast < t.base) (stays : front = [] ∨ c.base ≤ keepLast) :
    (Dir.GoesWell trailing.length log.dir.outcomes ∧ Log.truncateSuffix keepLast log = (do
        rewriteLast keepLast
        Fallible.modify fun log => { log with lastIndex := keepLast } : Method Unit)
      (log.holding (front ++ [c]) (log.dir.outcomes.drop trailing.length))) ∨
    ∃ stop log' part, ¬ Dir.GoesWell trailing.length log.dir.outcomes ∧
      Log.truncateSuffix keepLast log = (.error stop, log') ∧ part <+: trailing ∧
      log.Cut log' (front ++ [c] ++ part) := by
  have segments := laid.segments
  have files := laid.files
  rw [split] at segments files
  have enough : trailing.length < log.segments.length := by
    rw [segments, List.length_map, List.length_append, List.length_append, List.length_singleton]
    omega
  rw [Log.truncateSuffix, Fallible.bind_ok (Fallible.get_run log), if_neg (Nat.not_le.mpr cut),
    if_neg (Nat.not_lt.mpr accepted)]
  rcases dropTrailing_run segments files laid.distinct past stays enough with
    ⟨well, dropped⟩ | ⟨stop, log', part, bad, stopped, rest⟩
  · exact .inl ⟨well, Fallible.bind_ok dropped⟩
  · exact .inr ⟨stop, log', part, bad, Fallible.bind_error stopped, rest⟩

/-- The stages of a truncation of a synced log. -/
theorem truncateSuffix_run (laid : log.Laid lead active)
    (synced : ∀ x ∈ lead ++ [active], x.Synced) (accepted : log.firstIndex ≤ keepLast + 1)
    (cut : keepLast < log.lastIndex) (split : lead ++ [active] = front ++ [c] ++ trailing)
    (past : ∀ t ∈ trailing, keepLast < t.base) (stays : front = [] ∨ c.base ≤ keepLast) :
    (¬ Dir.GoesWell (trailing.length + 2) log.dir.outcomes ∧ ∃ stop log' part,
      Log.truncateSuffix keepLast log = (.error stop, log') ∧ part <+: trailing ∧
      log.Cut log' (front ++ [c] ++ part)) ∨
    (Dir.GoesWell (trailing.length + 2) log.dir.outcomes ∧
      (Log.truncateSuffix keepLast log).2.dir =
        (regrow c.base (c.records.take (keepLast + 1 - c.base))
          (log.holding front (log.dir.outcomes.drop (trailing.length + 2)))).2.dir ∧
      { log with lastIndex := keepLast }.Regrown front c.base
        (c.records.take (keepLast + 1 - c.base)) (Log.truncateSuffix keepLast log)) := by
  have segments := laid.segments
  rw [split] at segments synced
  rw [Dir.goesWell_add]
  rcases laid.truncateSuffix_begins accepted cut split past stays with
    ⟨well, begun⟩ | ⟨stop, log', part, bad, stopped, inside, cut⟩
  · rw [begun]
    rcases rewriteLast_run (log.holding (front ++ [c]) (log.dir.outcomes.drop trailing.length)) rfl
      rfl (laid.kept_distinct split) (fun x member => synced x (List.mem_append_left _ member))
      keepLast with
      ⟨bad, stop, log', stopped, cut⟩ | ⟨well', rewritten, grown⟩
    · refine Or.inl ⟨fun both => bad both.2, stop, log', [], Fallible.bind_error stopped,
        List.nil_prefix, ?_, cut.named, List.Subset.trans cut.segments ?_⟩
      · rw [List.append_nil]
        exact cut.files
      · rw [segments, List.map_append]
        exact (List.prefix_append _ _).subset
    · have drops : (log.dir.outcomes.drop trailing.length).drop 2 =
          log.dir.outcomes.drop (trailing.length + 2) := List.drop_drop
      have there : (log.holding (front ++ [c]) (log.dir.outcomes.drop trailing.length)).holding front
          ((log.dir.outcomes.drop trailing.length).drop 2) =
        log.holding front (log.dir.outcomes.drop (trailing.length + 2)) := by
        rw [drops]
        rfl
      refine Or.inr ⟨⟨well, well'⟩, ?_⟩
      rcases ended : rewriteLast keepLast
        (log.holding (front ++ [c]) (log.dir.outcomes.drop trailing.length)) with ⟨stop | ⟨⟩, log'⟩
      all_goals
        have dir : log'.dir = (regrow c.base (c.records.take (keepLast + 1 - c.base))
            (log.holding front (log.dir.outcomes.drop (trailing.length + 2)))).2.dir := by
          rw [← there]
          exact congrArg (fun ended => ended.2.dir) (ended.symm.trans rewritten)
      · rw [ended] at grown
        rw [Fallible.bind_error ended]
        refine ⟨dir, ?_⟩
        exact ⟨grown.files, grown.named, grown.flushed, nofun, fun healthy =>
          nomatch (grown.healthy (by rw [holding, healthy, List.drop_nil])).1⟩
      · rw [ended] at grown
        rw [Fallible.bind_ok ended]
        refine ⟨dir, ?_⟩
        refine ⟨grown.files, grown.named, grown.flushed, fun _ => ?_, fun healthy => ⟨rfl,
          (grown.healthy (by rw [holding, healthy, List.drop_nil])).2⟩⟩
        obtain ⟨c', outcomes, durable, records, base, rfl⟩ := grown.done rfl
        exact ⟨c', outcomes, durable, records, base, rfl⟩
  · exact Or.inl ⟨fun both => bad both.1, stop, log', part, stopped, inside, cut⟩

theorem cut_inside (laid : log.Laid lead active) (accepted : log.firstIndex ≤ keepLast + 1)
    (cut : keepLast < log.lastIndex) (split : lead ++ [active] = front ++ [c] ++ trailing)
    (past : ∀ t ∈ trailing, keepLast < t.base) (stays : front = [] ∨ c.base ≤ keepLast) :
    c.base = log.firstIndex + (flat front).length ∧ c.base ≤ keepLast + 1 ∧
      keepLast + 1 - c.base ≤ c.records.length := by
  have contiguous := laid.contiguous
  have last := laid.last
  rw [split, contiguous_append] at contiguous
  have base := contiguous.1.active_base
  rw [split] at last
  simp only [flat_append, flat_cons, flat_nil, List.append_nil, List.length_append] at last contiguous
  refine ⟨base, ?_, ?_⟩
  · rcases stays with rfl | below
    · rw [base]
      exact accepted
    · exact Nat.le_succ_of_le below
  · cases trailing with
    | nil =>
      rw [flat_nil, List.length_nil] at last
      omega
    | cons t trailing =>
      have next := contiguous.2.1
      have above := past t List.mem_cons_self
      omega

theorem shortened (laid : log.Laid lead active) (accepted : log.firstIndex ≤ keepLast + 1)
    (cut : keepLast < log.lastIndex) (split : lead ++ [active] = front ++ [c] ++ trailing)
    (past : ∀ t ∈ trailing, keepLast < t.base) (stays : front = [] ∨ c.base ≤ keepLast)
    {c' : Chunk} (records : c'.records = c.records.take (keepLast + 1 - c.base))
    (base : c'.base = c.base) (outcomes : List Outcome) :
    ({ log with lastIndex := keepLast }.holding (front ++ [c']) outcomes).Laid front c' ∧
      flat (front ++ [c']) = (flat (lead ++ [active])).take (keepLast + 1 - log.firstIndex) := by
  obtain ⟨start, below, inside⟩ := laid.cut_inside accepted cut split past stays
  have contiguous := laid.contiguous
  rw [split, List.append_assoc, contiguous_append] at contiguous
  refine ⟨⟨rfl, rfl, contiguous_append.mpr ⟨contiguous.1, base.trans start, trivial⟩, laid.positive,
    ?_, fun x member => laid.full x (mem_front split member), laid.named⟩, ?_⟩
  · simp only [holding, flat_append, flat_cons, flat_nil, List.append_nil, List.length_append, records,
      List.length_take]
    omega
  · have width : keepLast + 1 - log.firstIndex =
        (flat front).length + (keepLast + 1 - c.base) := by omega
    rw [split, List.append_assoc, flat_append, flat_append, flat_cons, flat_nil, List.append_nil,
      records, width, List.take_length_add_append, List.singleton_append, flat_cons,
      List.take_append_of_le_length inside]

theorem truncateSuffix_whole (laid : log.Laid lead active)
    (synced : ∀ x ∈ lead ++ [active], x.Synced) (healthy : log.dir.outcomes = [])
    (accepted : log.firstIndex ≤ keepLast + 1) (cut : keepLast < log.lastIndex)
    (split : lead ++ [active] = front ++ [c] ++ trailing)
    (past : ∀ t ∈ trailing, keepLast < t.base) (stays : front = [] ∨ c.base ≤ keepLast) :
    ∃ c' : Chunk, c'.Synced ∧ c'.records = c.records.take (keepLast + 1 - c.base) ∧
      c'.base = c.base ∧ Log.truncateSuffix keepLast log =
        (.ok (), { log with lastIndex := keepLast }.holding (front ++ [c']) []) := by
  rcases laid.truncateSuffix_run synced accepted cut split past stays with ⟨bad, _⟩ | ⟨_, _, grown⟩
  · exact absurd (healthy ▸ Dir.goesWell_nil _) bad
  · obtain ⟨success, clear⟩ := grown.healthy healthy
    obtain ⟨c', outcomes, durable, records, base, ended⟩ := grown.done success
    rw [ended] at clear
    have clear : outcomes = [] := clear
    exact ⟨c', durable, records, base, Prod.ext success (clear ▸ ended)⟩

theorem truncateSuffix_synced (laid : log.Laid lead active)
    (synced : ∀ x ∈ lead ++ [active], x.Synced) (healthy : log.dir.outcomes = [])
    (accepted : log.firstIndex ≤ keepLast + 1) (cut : keepLast < log.lastIndex) :
    ∃ log' front c, Log.truncateSuffix keepLast log = (.ok (), log') ∧ log'.Laid front c ∧
      log'.dir.outcomes = [] ∧ log'.firstIndex = log.firstIndex ∧
      flat (front ++ [c]) = (flat (lead ++ [active])).take (keepLast + 1 - log.firstIndex) ∧
      ∀ x ∈ front ++ [c], x.Synced := by
  obtain ⟨front, c, trailing, split, past, stays⟩ := split_at_cut keepLast
    (List.append_ne_nil_of_right_ne_nil lead (List.cons_ne_nil active []))
  obtain ⟨c', durable, records, base, finished⟩ :=
    laid.truncateSuffix_whole synced healthy accepted cut split past stays
  obtain ⟨laid', kept⟩ := laid.shortened accepted cut split past stays records base []
  refine ⟨_, front, c', finished, laid', rfl, rfl, kept, fun x member => ?_⟩
  rcases List.mem_append.mp member with before | here
  · exact synced x (split ▸ List.mem_append_left _ (List.mem_append_left _ before))
  · rw [List.mem_singleton.mp here]
    exact durable

end Laid

theorem dropLeading_step (upTo fuel : Nat) {log : Log} {c : Chunk}
    (segments : log.segments = (c :: (lead ++ [active])).map Chunk.segment)
    (full : c.records ≠ []) :
    c.base + c.records.length ≤ upTo ∧ dropLeading upTo (fuel + 1) log =
      (onDir c.segment.remove >>= fun _ => dropLeading upTo fuel)
        { log with segments := (lead ++ [active]).map Chunk.segment } ∨
    dropLeading upTo (fuel + 1) log = (.ok (), log) := by
  obtain ⟨next, rest, later⟩ : ∃ next rest, (lead ++ [active]).map Chunk.segment = next :: rest := by
    cases lead with
    | nil => exact ⟨_, _, rfl⟩
    | cons x lead => exact ⟨_, _, rfl⟩
  rw [List.map_cons, later] at segments
  by_cases past : c.segment.baseIndex + max c.segment.count 1 - 1 < upTo
  · refine .inl ⟨?_, ?_⟩
    · have some_record := List.length_pos_iff.mpr full
      rw [c.count] at past
      rw [Chunk.base]
      omega
    · simp only [dropLeading, Fallible.bind_run, Fallible.get_run, segments, if_pos past,
        Fallible.modify_run, later]
  · exact .inr (by simp [dropLeading, segments, past])

/-- The induction is on the segments before the active one. -/
theorem dropLeading_run (upTo fuel : Nat) {log : Log}
    (segments : log.segments = (lead ++ [active]).map Chunk.segment)
    (files : log.dir.files = (lead ++ [active]).map Chunk.entry)
    (distinct : (log.dir.files.map Prod.fst).Nodup) (full : ∀ c ∈ lead, c.records ≠ []) :
    ∃ gone left, lead = gone ++ left ∧ (∀ c ∈ gone, c.base + c.records.length ≤ upTo) ∧
      ((∃ outcomes, dropLeading upTo fuel log = (.ok (), log.holding (left ++ [active]) outcomes) ∧
        (log.dir.outcomes = [] → outcomes = [])) ∨
      ∃ stop log', dropLeading upTo fuel log = (.error stop, log') ∧ log.dir.outcomes ≠ [] ∧
        log.Cut log' (left ++ [active])) := by
  have unmoved {fuel : Nat} {log : Log} {lead : List Chunk}
      (segments : log.segments = (lead ++ [active]).map Chunk.segment)
      (files : log.dir.files = (lead ++ [active]).map Chunk.entry)
      (ran : dropLeading upTo fuel log = (.ok (), log)) :
      ∃ outcomes, dropLeading upTo fuel log = (.ok (), log.holding (lead ++ [active]) outcomes) ∧
        (log.dir.outcomes = [] → outcomes = []) := by
    refine ⟨log.dir.outcomes, ?_, id⟩
    rw [ran, holding, ← segments, ← files]
  induction lead generalizing log fuel with
  | nil =>
    refine ⟨[], [], rfl, nofun, Or.inl (unmoved segments files ?_)⟩
    cases fuel with
    | zero => rfl
    | succ fuel => simp [dropLeading, segments]
  | cons c lead ih =>
    cases fuel with
    | zero => exact ⟨[], c :: lead, rfl, nofun, Or.inl (unmoved segments files rfl)⟩
    | succ fuel =>
      rcases dropLeading_step upTo fuel segments (full c List.mem_cons_self) with
        ⟨below, begun⟩ | idle
      · have here : log.dir.files = ([] ++ c :: (lead ++ [active])).map Chunk.entry := files
        obtain ⟨removed, refused⟩ := remove_chunk
          { log with segments := (lead ++ [active]).map Chunk.segment } here distinct
        have fewer : (lead ++ [active]).map Chunk.segment ⊆ log.segments := by
          rw [segments, List.cons_append, List.map_cons]
          exact List.subset_cons_self _ _
        rw [begun]
        rcases Dir.attempt_cases log.dir with ⟨outcomes, ready, still⟩ | ⟨stop, outcomes, stopped, bad⟩
        · have distinct' : (((lead ++ [active]).map Chunk.entry).map Prod.fst).Nodup := by
            rw [files, List.cons_append, List.map_cons, List.map_cons, List.nodup_cons] at distinct
            exact distinct.2
          have there : (log.holding (lead ++ [active]) outcomes).segments =
            (lead ++ [active]).map Chunk.segment := rfl
          obtain ⟨gone, left, rfl, under, ended⟩ := ih fuel there rfl distinct'
            (fun x member => full x (List.mem_cons_of_mem _ member))
          refine ⟨c :: gone, left, rfl, ?_, ?_⟩
          · intro x member
            rcases List.mem_cons.mp member with rfl | later
            · exact below
            · exact under x later
          · rw [Fallible.bind_ok (removed _ ready)]
            refine ended.imp ?_ ?_
            · rintro ⟨outcomes', ran, still'⟩
              exact ⟨outcomes', ran, fun healthy => still' (still healthy)⟩
            · rintro ⟨stop, log', ran, bad, cut⟩
              exact ⟨stop, log', ran, fun healthy => bad (still healthy), cut.files, cut.named,
                List.Subset.trans cut.segments fewer⟩
        · obtain ⟨stop', log', ended, cut⟩ := refused stop _ stopped
          exact ⟨[], c :: lead, rfl, nofun, Or.inr ⟨stop', log', Fallible.bind_error ended, bad,
            cut.of_fewer fewer⟩⟩
      · exact ⟨[], c :: lead, rfl, nofun, Or.inl (unmoved segments files idle)⟩

namespace Laid

theorem compacted {gone left : List Chunk} (laid : log.Laid (gone ++ left) active)
    (outcomes : List Outcome) :
    { log.holding (left ++ [active]) outcomes with
      firstIndex := log.firstIndex + (flat gone).length }.Laid left active := by
  have last := laid.last
  have contiguous := laid.contiguous
  rw [List.append_assoc, contiguous_append] at contiguous
  rw [List.append_assoc, flat_append, List.length_append] at last
  refine ⟨rfl, rfl, contiguous.2, Nat.le_add_right_of_le laid.positive, ?_, ?_, laid.named⟩
  · simp only [holding]
    omega
  · exact fun c member => laid.full c (List.mem_append_right _ member)

theorem gone_below {gone left : List Chunk} {upTo : Nat} (laid : log.Laid (gone ++ left) active)
    (past : ∀ c ∈ gone, c.base + c.records.length ≤ upTo) :
    gone = [] ∨ log.firstIndex + (flat gone).length ≤ upTo := by
  have contiguous := laid.contiguous
  rw [List.append_assoc, contiguous_append] at contiguous
  cases gone using List.reverseRecOn with
  | nil => exact Or.inl rfl
  | append_singleton gone c =>
    have base := contiguous.1.active_base
    have below := past c (by simp)
    right
    simp only [flat_append, flat_cons, flat_nil, List.append_nil, List.length_append]
    omega

theorem truncatePrefix_run (laid : log.Laid lead active) (upTo : Nat) :
    ∃ gone left, lead = gone ++ left ∧ (gone = [] ∨ log.firstIndex + (flat gone).length ≤ upTo) ∧
      ((∃ outcomes, Log.truncatePrefix upTo log = (.ok (), { log.holding (left ++ [active]) outcomes
          with firstIndex := log.firstIndex + (flat gone).length }) ∧
        (log.dir.outcomes = [] → outcomes = [])) ∨
      ∃ stop log', Log.truncatePrefix upTo log = (.error stop, log') ∧ log.dir.outcomes ≠ [] ∧
        log.Cut log' (left ++ [active])) := by
  obtain ⟨gone, left, rfl, past, ended⟩ :=
    dropLeading_run upTo log.segments.length laid.segments laid.files laid.distinct laid.full
  rw [Log.truncatePrefix, Fallible.bind_ok (Fallible.get_run log)]
  refine ⟨gone, left, rfl, laid.gone_below past, ended.imp ?_ ?_⟩
  · rintro ⟨outcomes, ran, healthy⟩
    obtain ⟨c, head, base⟩ := (laid.compacted outcomes).starts
    refine ⟨outcomes, ?_, healthy⟩
    have first : (log.holding (left ++ [active]) outcomes).segments.head? = some c.segment := by
      rw [holding, List.head?_map, head]
      rfl
    rw [Fallible.bind_ok ran, Fallible.bind_run, Fallible.get_run]
    simp only [first, Fallible.modify_run]
    have same : c.segment.baseIndex = log.firstIndex + (flat gone).length := base
    rw [same]
  · rintro ⟨stop, log', ran, unhealthy, cut⟩
    refine ⟨stop, log', ?_, unhealthy, cut⟩
    rw [Fallible.bind_error ran]

end Laid
end Log
end WalKv
