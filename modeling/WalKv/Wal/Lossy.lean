import WalKv.Wal.Torn

/-! A log that was cut while records below the cut were still in a write buffer. These are
missing in the middle of it from then on, and nothing that is appended takes their place. -/
namespace WalKv
open Framing (stream)

namespace Log
variable [Checksum] {log log' whole : Log} {lead front trailing : List Chunk} {active active' c : Chunk}
  {part payload wanted : Bytes} {records own kept : List Bytes} {q keepLast covered i : Nat}

theorem survivors_lost (within : keepLast + 1 - c.base ≤ c.records.length)
    (survived : c.survivors keepLast = .ok kept) (lost : ¬ c.Reached (keepLast + 1 - c.base))
    {n : Nat} (few : n ≤ keepLast + 1 - c.base) (reached : c.Reached n) :
    n ≤ kept.length ∧ kept.length < keepLast + 1 - c.base := by
  obtain ⟨there, _, own, most⟩ := c.survivors_records survived
  have short : kept.length < keepLast + 1 - c.base := by
    refine most.lt_of_ne fun all => lost ?_
    rw [Chunk.Reached, ← all, ← List.prefix_iff_eq_take.mp own]
    exact there
  refine ⟨?_, short⟩
  have fits : Fits (c.records.take n) := fun x member => c.fits x (List.mem_of_mem_take member)
  have read := (Segment.items_prefix_iff (Nat.lt_succ_self _)).mpr ⟨reached, fits⟩
  rw [(survivors_inside survived).2.2 short] at read
  have counted := read.length_le
  rw [List.length_map, List.length_map, List.length_take_of_le (few.trans within)] at counted
  exact counted

/-- Whatever can be read once the log is synced, this record is not among it. -/
def Misses (log : Log) (q : Nat) (wanted : Bytes) : Prop :=
  ∀ log' records, Log.sync log.healed = (.ok (), log') → (readAll log').1 = .ok records →
    (q, wanted) ∉ records

/-- No segment has the record, and the last one does not end before its place. -/
structure Lacks (lead : List Chunk) (active : Chunk) (q : Nat) (wanted : Bytes) : Prop where
  absent : ∀ c ∈ lead ++ [active], (q, wanted) ∉ number c.base c.records
  reach : q ≤ active.base + active.records.length

namespace Lacks

theorem opened {log₁ : Log} {active₁ : Chunk} (lacks : Lacks lead active q wanted)
    (stacked : log.Stacked lead active) (inside : q ≤ log.lastIndex)
    (opened : log.Opened active log₁ active₁) :
    ∃ lead₁, log₁.Stacked lead₁ active₁ ∧ Lacks lead₁ active₁ q wanted := by
  obtain ⟨lead₁, stacked₁, ⟨rfl, rfl⟩ | ⟨rfl, rfl⟩⟩ := stacked.opened opened
  · exact ⟨lead₁, stacked₁, lacks⟩
  · refine ⟨_, stacked₁, ?_, Nat.le_succ_of_le inside⟩
    rw [List.forall_mem_append, List.forall_mem_singleton]
    exact ⟨lacks.absent, List.not_mem_nil⟩

theorem grown (lacks : Lacks lead active q wanted) (grown : active.Grown payload active')
    (other : payload ≠ wanted) : Lacks lead active' q wanted := by
  have absent := lacks.absent
  rw [List.forall_mem_append, List.forall_mem_singleton] at absent
  constructor
  · rw [List.forall_mem_append, List.forall_mem_singleton]
    refine ⟨absent.1, ?_⟩
    rw [grown.base, grown.records, number_append, List.mem_append]
    rintro (old | new)
    · exact absent.2 old
    · exact other (Prod.mk.inj (List.mem_singleton.mp new)).2.symm
  · have reach := lacks.reach
    rw [grown.base, grown.records, List.length_append]
    omega

theorem moved {lead' : List Chunk} (lacks : Lacks lead active q wanted)
    (same : SameRecords (lead ++ [active]) (lead' ++ [active'])) : Lacks lead' active' q wanted := by
  constructor
  · intro c' member
    obtain ⟨c, inside, base, records⟩ := forall₂_mem same.flip member
    rw [base, records]
    exact lacks.absent c inside
  · obtain ⟨front, last, split, _, base, records⟩ := same.split
    obtain rfl := List.singleton_inj.mp (List.append_inj' split rfl).2
    rw [base, records]
    exact lacks.reach

end Lacks

theorem frame_prefix_inj (small : payload.length ≤ maxRecordLen)
    (small' : wanted.length ≤ maxRecordLen) (inside : frame wanted <+: frame payload) :
    wanted = payload := by
  have unreadable : ∀ found, (parse []).1 ≠ .entry found := by
    rw [parse_nil]
    exact fun _ => RecordRead.noConfusion
  have only : [wanted] <+: [payload] := by
    refine run_longest (List.forall_mem_singleton.mpr small) unreadable
      (List.forall_mem_singleton.mpr small') ?_
    simpa using inside
  exact (List.cons_prefix_cons.mp only).1

/-- A sync does not bring the record back, unless its frame is what is left over. -/
theorem Ragged.misses (ragged : whole.Ragged active part log) (stacked : whole.Stacked lead active)
    (lacks : Lacks lead active q wanted)
    (other : wanted.length ≤ maxRecordLen → ¬ frame wanted <+: part) : log.Misses q wanted := by
  intro log' records synced read member
  obtain ⟨lead', last, file, same, durable, segments, base, files, distinct, content⟩ :=
    ragged.healed.sync_ok stacked synced
  obtain ⟨dir', ran⟩ := readAll_inv read
  obtain ⟨seg, listed, file', own, found, stream', fits, place⟩ := (readSegments_inv ran).2 _ member
  have absent := lacks.absent
  rw [List.forall_mem_append, List.forall_mem_singleton] at absent
  rw [segments, List.mem_append, List.mem_singleton] at listed
  rcases listed with before | rfl
  · obtain ⟨c', inside, rfl⟩ := List.mem_map.mp before
    obtain ⟨c, behind, base', records'⟩ := forall₂_mem same.flip inside
    have found' : log'.dir.find c'.base = some c'.file := by
      obtain ⟨before, after, rfl⟩ := List.append_of_mem inside
      rw [List.map_append, List.map_cons, List.append_assoc] at files
      exact Dir.find_middle files distinct
    obtain rfl := Option.some.inj (found.symm.trans found')
    obtain ⟨rest, split⟩ := c'.read_inside fits (stream' ▸ List.prefix_rfl)
    refine absent.1 c behind ?_
    rw [← base', ← records', ← split, number_append]
    exact List.mem_append_left _ place
  · rw [base, Dir.find, files, Keyed.lookup_middle (Dir.absent_before files distinct)] at found
    obtain rfl := Option.some.inj found
    rw [content] at stream'
    obtain ⟨more, rfl, rfl⟩ := stream_beyond active.fits fits stream'
    rw [base, number_append, List.mem_append] at place
    rcases place with old | new
    · exact absent.2 old
    · have reach := lacks.reach
      obtain ⟨above, here⟩ := mem_number.mp new
      obtain rfl : q = active.base + active.records.length := Nat.le_antisymm reach above
      rw [Nat.sub_self] at here
      obtain ⟨more, rfl⟩ : ∃ rest, more = wanted :: rest := by
        cases more with
        | nil => cases here
        | cons first rest => exact ⟨rest, by rw [Option.some.inj here]⟩
      have small : wanted.length ≤ maxRecordLen := fits wanted (by simp)
      refine other small ?_
      rw [Framing.stream_cons]
      exact List.prefix_append _ _

theorem Stacked.misses (stacked : log.Stacked lead active) (lacks : Lacks lead active q wanted) :
    log.Misses q wanted := by
  refine (stacked.ragged log.dir.outcomes).misses stacked lacks fun _ inside => ?_
  have length := inside.length_le
  rw [frame_length, headerLen, List.length_nil] at length
  omega

theorem Stacked.append_lacks (stacked : log.Stacked lead active) (lacks : Lacks lead active q wanted)
    (inside : q ≤ log.lastIndex) (small : payload.length ≤ maxRecordLen) (other : payload ≠ wanted) :
    Fallible.Leads (Log.append payload) log (fun t => t.Misses q wanted) fun _ t =>
      t.lastIndex = log.lastIndex + 1 ∧ ∃ lead' active', t.Stacked lead' active' ∧
        Lacks lead' active' q wanted := by
  rw [Fallible.Leads]
  rcases stacked.append_cases payload with ⟨log', ran, _, last, _, grows⟩ |
    ⟨stop, log', part, log₁, active₁, ran, _, _, taken, opened, ragged⟩
  · rw [ran]
    obtain ⟨log₁, active₁, active', outcomes, opened, grown, rfl⟩ := grows small
    obtain ⟨lead₁, stacked₁, lacks₁⟩ := lacks.opened stacked inside opened
    exact ⟨last, lead₁, active', stacked₁.put grown.base grown.records outcomes,
      lacks₁.grown grown other⟩
  · rw [ran]
    obtain ⟨lead₁, stacked₁, lacks₁⟩ := lacks.opened stacked inside opened
    exact ragged.misses stacked₁ lacks₁ fun small' there =>
      other (frame_prefix_inj small small' (there.trans taken)).symm

/-- A truncation that succeeds and finds less in the file than it is to keep, but all that was
covered: from the first lost index on nothing is as it was. -/
theorem Laid.truncateSuffix_loses (laid : log.Laid lead active)
    (accepted : log.firstIndex ≤ keepLast + 1) (cut : keepLast < log.lastIndex)
    (lost : ¬ OnFile keepLast (lead ++ [active])) (below : covered ≤ keepLast)
    (flushed : ∀ c ∈ lead ++ [active], c.Reached (covered + 1 - c.base))
    (ran : Log.truncateSuffix keepLast log = (.ok (), log')) :
    log'.lastIndex = keepLast ∧ ∃ front c q, log'.Stacked front c ∧ covered < q ∧ q ≤ keepLast ∧
      ∀ wanted, Lacks front c q wanted := by
  obtain ⟨front, c, trailing, c', outcomes, split, past, stays, survived, base, rfl⟩ :=
    laid.truncateSuffix_inv accepted cut ran
  obtain ⟨start, within, inside⟩ := laid.cut_inside accepted cut split past stays
  have contiguous := laid.contiguous
  rw [split, List.append_assoc, contiguous_append] at contiguous
  have before : ∀ x ∈ front, x.base + x.records.length ≤ c.base := fun x member =>
    start ▸ (contiguous.1.within member).2
  have unread : ¬ c.Reached (keepLast + 1 - c.base) := by
    intro reached
    refine lost fun x member low high => ?_
    rw [split, List.mem_append, List.mem_append, List.mem_singleton] at member
    rcases member with (old | rfl) | new
    · have ends := before x old
      rcases stays with rfl | stays
      · cases old
      · omega
    · exact reached
    · exact absurd low (Nat.not_le.mpr (past x new))
  obtain ⟨enough, fewer⟩ := survivors_lost inside survived unread (by omega)
    (flushed c (by simp [split]))
  refine ⟨rfl, front, c', c.base + c'.records.length, ?_, by omega, by omega, fun wanted => ?_⟩
  · refine ⟨rfl, rfl, ?_, ?_, fun x member => laid.full x (mem_front split member)⟩
    · have ordered := laid.stacked.ordered
      rw [split, List.map_append, List.map_append] at ordered
      rw [List.map_append, List.map_singleton, base]
      exact (List.pairwise_append.mp ordered).1
    · rw [List.forall_mem_append, List.forall_mem_singleton, base]
      have ends : ∀ x ∈ front, x.base + x.records.length ≤ keepLast + 1 := fun x member =>
        (before x member).trans within
      have last : c.base + c'.records.length ≤ keepLast + 1 := by omega
      exact ⟨ends, last⟩
  · have short : ∀ x : Chunk, x.base + x.records.length ≤ c.base + c'.records.length →
        (c.base + c'.records.length, wanted) ∉ number x.base x.records := by
      intro x ends member
      have found := (mem_number.mp member).2
      have inside := (List.getElem?_eq_some_iff.mp found).1
      omega
    refine ⟨?_, by rw [base]⟩
    rw [List.forall_mem_append, List.forall_mem_singleton]
    exact ⟨fun x member => short x ((before x member).trans (Nat.le_add_right _ _)),
      short c' (by rw [base])⟩

end Log
end WalKv
