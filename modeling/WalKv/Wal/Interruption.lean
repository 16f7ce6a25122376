import WalKv.Wal.Crash
import WalKv.Wal.Operations

/-! Crashes inside a truncation. Until the segment the cut falls into is deleted,
all records that are to be kept are on disk. From then on they are there again only
once the new file holds all of them. Segments that are deleted from the front may come
back, which matters to no one who reads from behind them. -/
namespace WalKv
open Framing (stream whole)

namespace Log

/-- The log when a truncation crashes after `k` operations. -/
def interrupted [Checksum] (keepLast k : Nat) (log : Log) : Log :=
  (truncateSuffix keepLast { log with dir := { log.dir with outcomes := crashAfter k } }).2

/-- What a crash may leave of a log after files were deleted: what is still there, and
any of the deleted files, because the directory is not synced. -/
structure MayLeave (before after : Log) (dir : Dir) : Prop where
  healthy : dir.outcomes = []
  named : dir.malformed = after.dir.malformed
  files : ∃ kept, dir.files.Sublist (before.crash kept).files ∧ (after.crash kept).files ⊆ dir.files

end Log

theorem flatMap_filter_sublist {α β : Type} {f : α → List β} {p : β → Bool} {sub all : List α}
    (inside : sub.Sublist all) (distinct : all.Nodup) (lost : ∀ a ∈ all, a ∉ sub → (f a).filter p = []) :
    (sub.flatMap f).filter p = (all.flatMap f).filter p := by
  induction inside with
  | slnil => rfl
  | @cons sub all a inside ih =>
    obtain ⟨absent, distinct⟩ := List.nodup_cons.mp distinct
    rw [List.flatMap_cons, List.filter_append, lost a List.mem_cons_self (absent <| inside.subset ·),
      List.nil_append]
    exact ih distinct fun b member => lost b (List.mem_cons_of_mem _ member)
  | @cons_cons sub all a inside ih =>
    obtain ⟨absent, distinct⟩ := List.nodup_cons.mp distinct
    rw [List.flatMap_cons, List.flatMap_cons, List.filter_append, List.filter_append]
    refine congrArg _ (ih distinct fun b member gone => lost b (List.mem_cons_of_mem _ member) ?_)
    rw [List.mem_cons, not_or]
    exact ⟨fun same => absent (same ▸ member), gone⟩

section Records
variable [Checksum] {log after : Log} {lead front trailing gone left : List Chunk} {active c : Chunk}
  {keepLast upTo : Nat} {kept : Nat → Nat} {dir : Dir}

namespace Log

/-- A log whose records are all on disk. -/
def Settled (log : Log) : Prop := ∃ lead active, log.Laid lead active ∧
  (∀ c ∈ lead ++ [active], c.Synced) ∧ log.dir.outcomes = []

/-- Reopening finds all records up to the cut. -/
def Keeps (keepLast : Nat) (log : Log) (reopened : Except Stop Log) : Prop :=
  ∃ log' before after, reopened = .ok log' ∧ (readAll log).1 = .ok before ∧
    (readAll log').1 = .ok after ∧ ∀ record ∈ before, record.1 ≤ keepLast → record ∈ after

/-- The bytes in the files of a directory. -/
def contents (dir : Dir) : List (Nat × Bytes) := dir.files.map fun entry => (entry.1, entry.2.content)

omit [Checksum] in
theorem bufferOf_nil (flushed : ∀ seg ∈ log.segments, seg.buffer = []) (base : Nat) :
    log.bufferOf base = [] := by
  rcases found : log.segments.find? (·.baseIndex = base) with _ | seg
  · rw [bufferOf, found]
    rfl
  · rw [bufferOf, found]
    exact flushed seg (List.mem_of_find?_eq_some found)

omit [Checksum] in
theorem crash_flushed (kept : Nat → Nat) (flushed : ∀ seg ∈ log.segments, seg.buffer = []) :
    (log.crash kept).files = log.dir.files.map fun entry =>
      let bytes := entry.2.content.take (survives kept entry)
      (entry.1, ⟨bytes, bytes.length⟩) := by
  simp only [crash, appended, bufferOf_nil flushed, List.append_nil]

theorem crash_synced {chunks : List Chunk} (synced : ∀ c ∈ chunks, c.Synced) :
    ((chunks.map Chunk.entry).map fun entry =>
      let bytes := entry.2.content.take (survives kept entry)
      ((entry.1, ⟨bytes, bytes.length⟩) : Nat × File)) =
    (chunks.map Chunk.intact).map Remnant.entry := by
  rw [List.map_map, List.map_map]
  refine List.map_congr_left fun c member => ?_
  have content := (synced c member).content
  have all : c.file.content.length ≤ survives kept c.entry :=
    (synced c member).2 ▸ Nat.le_max_left _ _
  simp only [Function.comp_apply, Remnant.entry, Chunk.intact, List.append_nil]
  rw [Chunk.entry] at all ⊢
  rw [List.take_of_length_le all, content]

theorem listed_past (past : ∀ t ∈ trailing, keepLast < t.base) {record : Nat × Bytes}
    (inside : record ∈ listed trailing) : keepLast < record.1 := by
  obtain ⟨t, member, inside⟩ := List.mem_flatMap.mp inside
  exact Nat.lt_of_lt_of_le (past t member) (mem_number.mp inside).1

theorem listed_within {chunks : List Chunk} {first : Nat} (contiguous : Contiguous first chunks)
    {record : Nat × Bytes} (inside : record ∈ listed chunks) :
    record.1 < first + (flat chunks).length := by
  obtain ⟨x, member, inside⟩ := List.mem_flatMap.mp inside
  have within := (contiguous.within member).2
  obtain ⟨from_base, found⟩ := mem_number.mp inside
  have := (List.getElem?_eq_some_iff.mp found).1
  omega

theorem Cut.crash {chunks : List Chunk} (cut : log.Cut after chunks) (laid : log.Laid lead active)
    (synced : ∀ c ∈ lead ++ [active], c.Synced) (inside : chunks ⊆ lead ++ [active]) (kept : Nat → Nat) :
    (after.crash kept).files = (chunks.map Chunk.intact).map Remnant.entry := by
  have flushed : ∀ seg ∈ after.segments, seg.buffer = [] := by
    intro seg there
    have before := cut.segments there
    rw [laid.segments] at before
    obtain ⟨x, member, rfl⟩ := List.mem_map.mp before
    exact (synced x member).1
  have durable : ∀ x ∈ chunks, x.Synced := fun x member => synced x (inside member)
  rw [crash_flushed kept flushed, cut.files_synced durable]
  exact crash_synced durable

theorem Laid.keeps_before (laid : log.Laid lead active)
    (synced : ∀ x ∈ lead ++ [active], x.Synced) (healthy : log.dir.outcomes = [])
    (split : lead ++ [active] = front ++ [c] ++ trailing)
    (past : ∀ t ∈ trailing, keepLast < t.base) {log' : Log} {part : List Chunk}
    (inside : part <+: trailing) (cut : log.Cut log' (front ++ [c] ++ part))
    (maxSegmentBytes : Nat) : Keeps keepLast log (Log.open maxSegmentBytes (log'.crash kept)).1 := by
  have still : front ++ [c] ++ part <+: lead ++ [active] := by
    rw [split]
    exact (List.prefix_append_right_inj _).mpr inside
  have files := cut.crash laid synced still.subset kept
  have ordered : (((front ++ [c] ++ part).map Chunk.intact).map Remnant.base).Pairwise (· < ·) := by
    have ordered := laid.contiguous.ordered laid.full
    rw [List.map_map]
    exact ordered.sublist (still.sublist.map _)
  have named : (log'.crash kept).malformed = [] := cut.named.trans laid.named
  obtain ⟨log'', reopened, read⟩ := reopen_remnants maxSegmentBytes rfl named files ordered
  rw [List.flatMap_map] at read
  refine ⟨log'', _, _, reopened, congrArg Prod.fst (laid.readAll_run synced healthy), read, ?_⟩
  intro record before below
  rw [split, listed, List.flatMap_append] at before
  rw [List.flatMap_append]
  rcases List.mem_append.mp before with front | behind
  · exact List.mem_append_left _ front
  · exact absurd (listed_past past behind) (Nat.not_lt.mpr below)

theorem Laid.truncatePrefix_cut (laid : log.Laid lead active) (upTo : Nat) :
    ∃ gone left, lead = gone ++ left ∧ (gone = [] ∨ log.firstIndex + (flat gone).length ≤ upTo) ∧
      log.Cut (truncatePrefix upTo log).2 (left ++ [active]) := by
  obtain ⟨gone, left, rfl, past, ended⟩ := laid.truncatePrefix_run upTo
  refine ⟨gone, left, rfl, past, ?_⟩
  rcases ended with ⟨outcomes, ran, _⟩ | ⟨stop, log', ran, _, cut⟩
  · rw [ran]
    refine .of_files rfl rfl ?_
    rw [laid.segments, List.append_assoc]
    exact List.map_subset _ (List.subset_append_right _ _)
  · rw [ran]
    exact cut

theorem Laid.reload (laid : log.Laid (gone ++ left) active)
    (synced : ∀ c ∈ gone ++ left ++ [active], c.Synced) (cut : log.Cut after (left ++ [active]))
    (past : gone = [] ∨ log.firstIndex + (flat gone).length ≤ upTo) (leaves : MayLeave log after dir)
    (maxSegmentBytes : Nat) : ∃ log' records, (Log.open maxSegmentBytes dir).1 = .ok log' ∧
      (readAll log').1 = .ok records ∧
      records.filter (upTo ≤ ·.1) = (listed (gone ++ left ++ [active])).filter (upTo ≤ ·.1) := by
  have ordered := laid.contiguous.ordered laid.full
  obtain ⟨kept, fewer, still⟩ := leaves.files
  have whole : log.Cut log (gone ++ left ++ [active]) := .of_files laid.files rfl (List.Subset.refl _)
  rw [whole.crash laid synced (List.Subset.refl _), List.map_map] at fewer
  rw [cut.crash laid synced (by simp)] at still
  obtain ⟨sub, inside, files⟩ := List.sublist_map_iff.mp fewer
  rw [← List.map_map] at files
  have ordered' : ((sub.map Chunk.intact).map Remnant.base).Pairwise (· < ·) := by
    rw [List.map_map]
    exact ordered.sublist (inside.map _)
  obtain ⟨log', opened, read⟩ := reopen_remnants maxSegmentBytes leaves.healthy
    (leaves.named.trans (cut.named.trans laid.named)) files ordered'
  rw [List.flatMap_map] at read
  refine ⟨log', _, opened, read, flatMap_filter_sublist inside ?_ fun c member missing => ?_⟩
  · exact List.Nodup.of_map _ (ordered.imp Nat.ne_of_lt)
  · have deleted : c ∈ gone := by
      rw [List.append_assoc] at member
      refine (List.mem_append.mp member).resolve_right fun behind => missing ?_
      have there := still (List.mem_map_of_mem (List.mem_map_of_mem behind))
      rw [files, List.map_map] at there
      obtain ⟨x, held, same⟩ := List.mem_map.mp there
      have bases : x.base = c.base := congrArg Prod.fst same
      rw [List.append_assoc] at inside ordered
      rwa [← List.inj_on_of_nodup_map (ordered.imp Nat.ne_of_lt) (inside.subset held) member bases]
    have contiguous := laid.contiguous
    rw [List.append_assoc, contiguous_append] at contiguous
    refine List.filter_eq_nil_iff.mpr fun record recorded above => ?_
    have within := listed_within contiguous.1 (List.mem_flatMap.mpr ⟨c, deleted, recorded⟩)
    have below := past.resolve_left (List.ne_nil_of_mem deleted)
    exact absurd (of_decide_eq_true above) (by omega)

/-- What a directory holds when the new file holds all records that are kept. -/
def restored (front : List Chunk) (base : Nat) (records : List Bytes) : List (Nat × Bytes) :=
  (front.map fun c => (c.base, stream frame c.records)) ++ [(base, stream frame records)]

theorem Regrown.reopen {records : List Bytes} {base : Nat} {ended : Except Stop Unit × Log}
    (grown : log.Regrown front base records ended) (fits : Fits records)
    (named : log.dir.malformed = []) (synced : ∀ x ∈ front, x.Synced)
    (ordered : (front.map Chunk.base ++ [base]).Pairwise (· < ·)) (maxSegmentBytes : Nat)
    (kept : Nat → Nat) :
    ∃ w ≤ records.length,
      (∃ log', (Log.open maxSegmentBytes (ended.2.crash kept)).1 = .ok log' ∧
        (readAll log').1 = .ok (listed front ++ number base (records.take w))) ∧
      (0 < w → ended.2.dir.files.length = front.length + 1) ∧
      (contents (ended.2.crash kept) = restored front base records ↔
        w = records.length ∧ ended.2.dir.files.length = front.length + 1) := by
  obtain ⟨again, files, inside⟩ := grown.files
  have named : (ended.2.crash kept).malformed = [] := grown.named.trans named
  have left := crash_flushed kept (grown.flushed synced)
  rw [files, List.map_append, crash_synced synced] at left
  cases again with
  | none =>
    rw [Option.map_none, Option.toList_none, List.map_nil, List.append_nil] at left
    have ordered : ((front.map Chunk.intact).map Remnant.base).Pairwise (· < ·) := by
      rw [List.map_map]
      exact (List.pairwise_append.mp ordered).1
    obtain ⟨log', reopened, read⟩ := reopen_remnants maxSegmentBytes rfl named left ordered
    rw [List.flatMap_map] at read
    refine ⟨0, Nat.zero_le _, ⟨log', reopened, ?_⟩, nofun, ?_⟩
    · rw [read, List.take_zero]
      exact congrArg _ (List.append_nil _).symm
    · refine iff_of_false (fun same => ?_) fun both => ?_
      · have counted := congrArg List.length same
        simp [contents, left, restored] at counted
      · have counted := both.2
        simp [files] at counted
  | some file =>
    obtain ⟨rest, all⟩ := inside file rfl
    let m := min (survives kept (base, file)) file.content.length
    let again : Remnant := (Chunk.settled base records fits).remnant m
    have bytes : file.content.take (survives kept (base, file)) = (stream frame records).take m := by
      rw [← all, List.take_append_of_le_length (Nat.min_le_right _ _), List.take_eq_take_min]
    have left : (ended.2.crash kept).files = (front.map Chunk.intact ++ [again]).map Remnant.entry := by
      rw [left, List.map_append, List.map_singleton, Chunk.remnant_entry]
      simp only [Option.map_some, Option.toList_some, List.map_cons, List.map_nil, bytes]
      rfl
    have ordered : ((front.map Chunk.intact ++ [again]).map Remnant.base).Pairwise (· < ·) := by
      rw [List.map_append, List.map_map]
      exact ordered
    obtain ⟨log', reopened, read⟩ := reopen_remnants maxSegmentBytes rfl named left ordered
    have counted : ended.2.dir.files.length = front.length + 1 := by
      simp [files]
    refine ⟨whole frame records m, Framing.whole_le _ _ _, ⟨log', reopened, ?_⟩, fun _ => counted, ?_⟩
    · rw [read, List.flatMap_append, List.flatMap_map, List.flatMap_singleton]
      rfl
    · have shown : contents (ended.2.crash kept) =
          (front.map fun c => (c.base, stream frame c.records)) ++
            [(base, (stream frame records).take m)] := by
        rw [contents, left, List.map_map, List.map_append, List.map_map, List.map_singleton,
          Function.comp_apply, Chunk.remnant_entry]
        simp only [Function.comp_def, Remnant.entry, Chunk.intact, List.append_nil]
        rfl
      rw [shown, restored, List.append_right_inj, List.singleton_inj, Prod.mk.injEq,
        List.take_eq_self_iff, ← Framing.whole_eq_length_iff]
      simp [counted]

/-- How many segments a truncation deletes before it reads the one the cut falls
into. -/
def trailingCount (keepLast : Nat) (log : Log) : Nat :=
  log.segments.tail.countP (keepLast < ·.baseIndex)

theorem Laid.trailingCount (laid : log.Laid lead active)
    (split : lead ++ [active] = front ++ [c] ++ trailing)
    (past : ∀ t ∈ trailing, keepLast < t.base) (stays : front = [] ∨ c.base ≤ keepLast) :
    log.trailingCount keepLast = trailing.length := by
  have ordered := laid.contiguous.ordered laid.full
  have behind : (trailing.map Chunk.segment).countP (keepLast < ·.baseIndex) = trailing.length := by
    rw [List.countP_map, List.countP_eq_length]
    exact fun t member => decide_eq_true (past t member)
  rw [Log.trailingCount, laid.segments, split]
  cases front with
  | nil => exact behind
  | cons x front =>
    have below : c.base ≤ keepLast := stays.resolve_left (List.cons_ne_nil _ _)
    rw [split, List.map_append, List.pairwise_append, List.map_append, List.pairwise_append] at ordered
    rw [List.cons_append, List.cons_append, List.map_cons, List.tail_cons, List.map_append,
      List.countP_append, behind, List.countP_map, List.countP_eq_zero.mpr, Nat.zero_add]
    intro y member
    have up : y.base ≤ c.base := by
      rcases List.mem_append.mp member with inside | here
      · exact Nat.le_of_lt (ordered.1.2.2 y.base
          (List.mem_map_of_mem (List.mem_cons_of_mem _ inside)) c.base (by simp))
      · rw [List.mem_singleton.mp here]
    exact fun above => absurd (of_decide_eq_true above) (Nat.not_lt.mpr (up.trans below))

/-- The segment that the cut falls into is the last one that starts at or before the cut. -/
def cutBase (keepLast : Nat) (log : Log) : Nat :=
  ((log.segments.filter (·.baseIndex ≤ keepLast)).getLast?.map Segment.baseIndex).getD log.firstIndex

/-- The records of that segment up to the cut, which a truncation writes again. -/
def rewritten (keepLast : Nat) (log : Log) : List Bytes :=
  match (readAll log).1 with
  | .ok records =>
    (records.filter fun record => log.cutBase keepLast ≤ record.1 ∧ record.1 ≤ keepLast).map Prod.snd
  | .error _ => []

theorem Laid.cutBase (laid : log.Laid lead active)
    (split : lead ++ [active] = front ++ [c] ++ trailing)
    (past : ∀ t ∈ trailing, keepLast < t.base) (reaches : c.base ≤ keepLast) :
    log.cutBase keepLast = c.base := by
  have behind : (trailing.map Chunk.segment).filter (·.baseIndex ≤ keepLast) = [] := by
    rw [List.filter_eq_nil_iff]
    intro seg member below
    obtain ⟨t, inside, rfl⟩ := List.mem_map.mp member
    exact absurd (of_decide_eq_true below) (Nat.not_le.mpr (past t inside))
  have here : [c.segment].filter (·.baseIndex ≤ keepLast) = [c.segment] :=
    List.filter_eq_self.mpr (List.forall_mem_singleton.mpr (decide_eq_true reaches))
  rw [Log.cutBase, laid.segments, split, List.map_append, List.map_append, List.map_singleton,
    List.filter_append, List.filter_append, behind, List.append_nil, here, List.getLast?_concat]
  rfl

omit [Checksum] in
theorem number_between {i first last : Nat} {before inside behind : List Bytes}
    (start : first = i + before.length) (ends : last + 1 = first + inside.length) :
    ((number i (before ++ inside ++ behind)).filter fun record =>
      first ≤ record.1 ∧ record.1 ≤ last).map Prod.snd = inside := by
  have within {j : Nat} {records : List Bytes} {record : Nat × Bytes}
      (member : record ∈ number j records) : j ≤ record.1 ∧ record.1 < j + records.length := by
    obtain ⟨above, found⟩ := mem_number.mp member
    have := (List.getElem?_eq_some_iff.mp found).1
    omega
  have lower : (number i before).filter (fun r => first ≤ r.1 ∧ r.1 ≤ last) = [] := by
    refine List.filter_eq_nil_iff.mpr fun record member between => ?_
    have := within member
    have := (of_decide_eq_true between).1
    omega
  have middle : (number first inside).filter (fun r => first ≤ r.1 ∧ r.1 ≤ last) =
      number first inside := by
    refine List.filter_eq_self.mpr fun record member => decide_eq_true ?_
    have := within member
    omega
  have upper : (number (first + inside.length) behind).filter (fun r => first ≤ r.1 ∧ r.1 ≤ last) =
      [] := by
    refine List.filter_eq_nil_iff.mpr fun record member between => ?_
    have := within member
    have := (of_decide_eq_true between).2
    omega
  rw [List.append_assoc, number_append, number_append, ← start, List.filter_append,
    List.filter_append, lower, middle, upper, List.append_nil, List.nil_append]
  simp [number, Function.comp_def]

theorem Laid.rewritten (laid : log.Laid lead active)
    (synced : ∀ x ∈ lead ++ [active], x.Synced) (healthy : log.dir.outcomes = [])
    (accepted : log.firstIndex ≤ keepLast + 1) (cut : keepLast < log.lastIndex)
    (split : lead ++ [active] = front ++ [c] ++ trailing)
    (past : ∀ t ∈ trailing, keepLast < t.base) (reaches : c.base ≤ keepLast) :
    log.rewritten keepLast = c.records.take (keepLast + 1 - c.base) := by
  obtain ⟨start, _, inside⟩ := laid.cut_inside accepted cut split past (.inr reaches)
  have read := congrArg Prod.fst (laid.readAll_run synced healthy)
  have parts : flat (lead ++ [active]) = flat front ++ c.records.take (keepLast + 1 - c.base) ++
      (c.records.drop (keepLast + 1 - c.base) ++ flat trailing) := by
    rw [split, flat_append, flat_append, flat_cons, flat_nil, List.append_nil, List.append_assoc,
      List.append_assoc, ← List.append_assoc (c.records.take _), List.take_append_drop]
  rw [listed, laid.contiguous.number, parts] at read
  simp only [Log.rewritten, read, laid.cutBase split past reaches]
  refine number_between start ?_
  rw [List.length_take_of_le inside]
  omega

theorem contents_restored_iff {records : List Bytes} {base j : Nat} {file : File}
    (files : log.dir.files = front.map Chunk.entry ++ [(base, file)])
    (flushed : ∀ seg ∈ log.segments, seg.buffer = []) (synced : ∀ x ∈ front, x.Synced)
    (filled : Filled records j file) :
    contents (log.crash kept) = restored front base records ↔
      writes records ≤ j ∧ (stream frame records).length ≤ kept base ∨ writes records < j := by
  have shown : contents (log.crash kept) = (front.map fun c => (c.base, stream frame c.records)) ++
      [(base, file.content.take (max file.synced (kept base)))] := by
    rw [contents, crash_flushed kept flushed, files, List.map_append, crash_synced synced]
    simp only [List.map_append, List.map_map, List.map_cons, List.map_nil]
    congr 1
    refine List.map_congr_left fun x _ => ?_
    simp [Remnant.entry, Chunk.intact]
  rw [shown, restored, List.append_right_inj, List.singleton_inj, Prod.mk.injEq]
  rcases filled with ⟨early, short⟩ | ⟨rfl, rfl⟩ | ⟨late, rfl⟩
  · refine iff_of_false ?_ (by omega)
    rintro ⟨_, same⟩
    have := congrArg List.length same
    rw [List.length_take] at this
    omega
  · simp [List.take_eq_self_iff]
  · simp [late]

theorem Regrown.keeps_iff (laid : log.Laid lead active)
    (synced : ∀ x ∈ lead ++ [active], x.Synced) (healthy : log.dir.outcomes = [])
    (accepted : log.firstIndex ≤ keepLast + 1) (cut : keepLast < log.lastIndex)
    (split : lead ++ [active] = front ++ [c] ++ trailing)
    (past : ∀ t ∈ trailing, keepLast < t.base) (stays : front = [] ∨ c.base ≤ keepLast)
    {log₁ : Log} {ended : Except Stop Unit × Log}
    (grown : log₁.Regrown front c.base (c.records.take (keepLast + 1 - c.base)) ended)
    (named : log₁.dir.malformed = []) (maxSegmentBytes : Nat) :
    Keeps keepLast log (Log.open maxSegmentBytes (ended.2.crash kept)).1 ↔
      keepLast < log.firstIndex ∨ contents (ended.2.crash kept) =
        restored front c.base (c.records.take (keepLast + 1 - c.base)) := by
  obtain ⟨start, below, inside⟩ := laid.cut_inside accepted cut split past stays
  have first := laid.contiguous
  rw [split, contiguous_append, contiguous_append] at first
  have ordered := laid.contiguous.ordered laid.full
  rw [split, List.map_append, List.pairwise_append, List.map_append] at ordered
  have durable : ∀ x ∈ front, x.Synced := fun x member =>
    synced x (split ▸ List.mem_append_left _ (List.mem_append_left _ member))
  obtain ⟨w, within, ⟨log', reopened, read⟩, counted, same⟩ := grown.reopen
    (fun x member => c.fits x (List.mem_of_mem_take member)) named durable ordered.1 maxSegmentBytes
    kept
  rw [same]
  have before := laid.readAll_run synced healthy
  rw [split] at before
  have size : (c.records.take (keepLast + 1 - c.base)).length = keepLast + 1 - c.base :=
    List.length_take_of_le inside
  rw [size] at within ⊢
  constructor
  · rintro ⟨log'', all, after, opened, held, found, keeps⟩
    cases reopened.symm.trans opened
    cases read.symm.trans found
    cases (congrArg Prod.fst before).symm.trans held
    by_cases none : keepLast < log.firstIndex
    · exact Or.inl none
    · have reaches : c.base ≤ keepLast := by
        rcases stays with rfl | reaches
        · rw [flat_nil, List.length_nil] at start
          omega
        · exact reaches
      have last : keepLast - c.base < c.records.length := by omega
      have record : (keepLast, c.records[keepLast - c.base]) ∈ listed (front ++ [c] ++ trailing) := by
        refine List.mem_flatMap.mpr ⟨c, by simp, mem_number.mpr ⟨reaches, ?_⟩⟩
        exact List.getElem?_eq_getElem last
      rcases List.mem_append.mp (keeps _ record le_rfl) with elsewhere | there
      · have := listed_within first.1.1 elsewhere
        exact absurd this (by simp only; omega)
      · have there := (mem_number.mp there).2
        rw [List.getElem?_take] at there
        split_ifs at there with below
        exact Or.inr ⟨by omega, counted (by omega)⟩
  · intro condition
    refine ⟨log', _, _, reopened, congrArg Prod.fst before, read, ?_⟩
    intro record inside below
    rw [listed, List.flatMap_append, List.flatMap_append, List.flatMap_singleton] at inside
    rcases List.mem_append.mp inside with inside | behind
    · rcases List.mem_append.mp inside with elsewhere | here
      · exact List.mem_append_left _ elsewhere
      · obtain ⟨i, payload⟩ := record
        obtain ⟨from_base, found⟩ := mem_number.mp here
        simp only at below
        rcases condition with none | ⟨rfl, _⟩
        · omega
        · refine List.mem_append_right _ (mem_number.mpr ⟨from_base, ?_⟩)
          rw [List.take_take, Nat.min_self, List.getElem?_take, if_pos (by omega), found]
    · exact absurd (listed_past past behind) (Nat.not_lt.mpr below)

/-- A crash after `k` operations of a truncation keeps the records before the cut
exactly if the segment the cut falls into is not deleted yet, or there are no such
records, or all of them are written again and none of their bytes is lost, or they are
synced. Behind the deletions these are a read, a deletion, a creation, the writes and
an fsync. -/
theorem truncation_keeps_iff (log : Log) (settled : log.Settled) (keepLast : Nat)
    (accepted : log.firstIndex ≤ keepLast + 1) (cut : keepLast < log.lastIndex)
    (k maxSegmentBytes : Nat) (kept : Nat → Nat) :
    Keeps keepLast log
        (Log.open maxSegmentBytes ((log.interrupted keepLast k).crash kept)).1 ↔
      k ≤ log.trailingCount keepLast + 1 ∨ keepLast < log.firstIndex ∨
        log.trailingCount keepLast + 3 + writes (log.rewritten keepLast) ≤ k ∧
          (stream frame (log.rewritten keepLast)).length ≤ kept (log.cutBase keepLast) ∨
        log.trailingCount keepLast + 4 + writes (log.rewritten keepLast) ≤ k := by
  obtain ⟨lead, active, laid, synced, healthy⟩ := settled
  obtain ⟨front, c, trailing, split, past, stays⟩ :=
    split_at_cut keepLast (List.append_ne_nil_of_right_ne_nil lead (List.cons_ne_nil active []))
  have laid₁ : { log with dir := { log.dir with outcomes := crashAfter k } }.Laid lead active :=
    ⟨laid.segments, laid.files, laid.contiguous, laid.positive, laid.last, laid.full, laid.named⟩
  rw [laid.trailingCount split past stays]
  rcases laid₁.truncateSuffix_run synced accepted cut split past stays with
    ⟨early, stop, log', part, stopped, inside, left⟩ | ⟨late, rewrites, grown⟩
  · have early : k ≤ trailing.length + 1 := by
      rw [goesWell_crashAfter] at early
      omega
    have left : log.Cut log' (front ++ [c] ++ part) := ⟨left.files, left.named, left.segments⟩
    refine iff_of_true ?_ (Or.inl early)
    rw [interrupted, stopped]
    exact laid.keeps_before synced healthy split past inside left maxSegmentBytes
  · rw [goesWell_crashAfter] at late
    rw [or_iff_right (by omega), interrupted, grown.keeps_iff laid synced healthy accepted cut split
      past stays laid.named maxSegmentBytes]
    refine or_congr_right' fun some => ?_
    have reaches : c.base ≤ keepLast := by
      obtain ⟨start, _, _⟩ := laid.cut_inside accepted cut split past stays
      rcases stays with rfl | reaches
      · rw [flat_nil, List.length_nil] at start
        omega
      · exact reaches
    rw [laid.rewritten synced healthy accepted cut split past reaches, laid.cutBase split past reaches]
    have durable : ∀ x ∈ front, x.Synced := fun x member =>
      synced x (split ▸ List.mem_append_left _ (List.mem_append_left _ member))
    have absent : c.base ∉ (front.map Chunk.entry).map Prod.fst := by
      have files := laid.files
      rw [split, List.append_assoc, List.map_append, List.singleton_append, List.map_cons] at files
      exact Dir.absent_before files laid.distinct
    have crash : (log.holding front ((crashAfter k).drop (trailing.length + 2))).dir.outcomes =
      crashAfter (k - (trailing.length + 2)) := crashAfter_drop late
    rcases regrow_crash (c.records.take (keepLast + 1 - c.base)) absent crash with
      ⟨none, files⟩ | ⟨file, j, more, files, filled⟩
    · refine iff_of_false (fun same => ?_) (by omega)
      have counted := congrArg List.length same
      rw [contents, crash_flushed kept (grown.flushed durable),
        (congrArg Dir.files rewrites).trans files] at counted
      simp [restored, holding] at counted
    · rw [contents_restored_iff ((congrArg Dir.files rewrites).trans files)
        (grown.flushed durable) durable filled]
      omega

end Log
end Records

namespace Log

theorem pair_fits : Fits [[1], [2]] := by
  simp [Fits, maxRecordLen]

/-- A log of two records in one segment. -/
def pair : Log :=
  let stored : Chunk := .settled 1 [[1], [2]] pair_fits
  ⟨⟨"wal", [stored.entry], [], []⟩, 1024, [stored.segment], 1, 2⟩

theorem pair_settled : pair.Settled :=
  ⟨[], .settled 1 [[1], [2]] pair_fits, ⟨rfl, rfl, ⟨rfl, trivial⟩, le_rfl, rfl,
    nofun, rfl⟩, by simpa using Chunk.settled_synced _ _ _, rfl⟩

/-- The first record is kept by a crash before the segment is deleted, by one between the write
and the fsync if the file keeps all of its nine bytes, and by one after the fsync. -/
theorem truncation_keeps_iff_pair :
    Keeps 1 pair (Log.open 1024 ((pair.interrupted 1 1).crash fun _ => 0)).1 ∧
      Keeps 1 pair (Log.open 1024 ((pair.interrupted 1 4).crash fun _ => 9)).1 ∧
      ¬ Keeps 1 pair (Log.open 1024 ((pair.interrupted 1 4).crash fun _ => 8)).1 ∧
      Keeps 1 pair (Log.open 1024 ((pair.interrupted 1 5).crash fun _ => 0)).1 := by
  have keeps_iff (k survive : Nat) :=
    truncation_keeps_iff pair pair_settled 1 (by decide) (by decide) k 1024 fun _ => survive
  have again : pair.rewritten 1 = [[1]] := by decide +kernel
  have bytes : (stream frame [[1]]).length = 9 := by decide +kernel
  have once : writes [[1]] = 1 := by decide +kernel
  have first : pair.firstIndex = 1 := rfl
  have none : pair.trailingCount 1 = 0 := rfl
  simp only [keeps_iff, again, bytes, once, first, none]
  decide

/-- A crash right after the segment is deleted loses it. -/
theorem truncation_loses : pair.Settled ∧ pair.firstIndex ≤ 1 + 1 ∧ 1 < pair.lastIndex ∧
    ¬ Keeps 1 pair (Log.open 1024 ((pair.interrupted 1 2).crash fun _ => 0)).1 := by
  refine ⟨pair_settled, by decide, by decide, ?_⟩
  rintro ⟨log, before, after, reopened, held, found, keeps⟩
  have start : (readAll pair).1.toOption = some [(1, [1]), (2, [2])] := by decide +kernel
  have lost : (Log.open 1024 ((pair.interrupted 1 2).crash fun _ => 0)).1.toOption.bind
      (fun log => (readAll log).1.toOption) = some [] := by decide +kernel
  rw [held] at start
  rw [reopened, Except.toOption, Option.bind_some, found] at lost
  cases start
  cases lost
  cases keeps (1, [1]) List.mem_cons_self le_rfl

end Log
end WalKv
