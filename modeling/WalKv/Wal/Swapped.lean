import WalKv.Wal.Layout
import WalKv.Wal.Reopening

/-! A synced log one of whose files has become another one, whatever that holds. If it opens, its
other segments are as they were. -/
namespace WalKv
open Framing (stream)

theorem number_without (i : Nat) (first second : List Bytes) (payload : Bytes) :
    (number i (first ++ payload :: second)).filter (·.1 ≠ i + first.length) =
      number i first ++ number (i + first.length + 1) second := by
  have lower : (number i first).filter (·.1 ≠ i + first.length) = number i first := by
    rw [List.filter_eq_self]
    rintro ⟨j, record⟩ inside
    obtain ⟨start, found⟩ := mem_number.mp inside
    obtain ⟨below, _⟩ := List.getElem?_eq_some_iff.mp found
    exact decide_eq_true (by simp only; omega)
  have upper : (number (i + first.length + 1) second).filter (·.1 ≠ i + first.length) =
      number (i + first.length + 1) second := by
    rw [List.filter_eq_self]
    rintro ⟨j, record⟩ inside
    obtain ⟨start, _⟩ := mem_number.mp inside
    exact decide_eq_true (by simp only; omega)
  have single : number (i + first.length) (payload :: second) =
      (i + first.length, payload) :: number (i + first.length + 1) second := by
    simp [number]
  rw [number_append, List.filter_append, lower, single, List.filter_cons_of_neg (by simp), upper]

namespace Log
variable [Checksum] {log : Log} {lead front back : List Chunk} {active c : Chunk} {s : Scanned}

/-- The directory of a log with another file in the place of one of its segments. -/
def swapped (log : Log) (s : Scanned) : Dir := log.dir.setFile s.base s.file

/-- The files of such a directory. -/
def aside (front : List Chunk) (s : Scanned) (back : List Chunk) : List Scanned :=
  front.map (fun c => .settled c.base c.records c.fits) ++
    s :: back.map (fun c => .settled c.base c.records c.fits)

theorem aside_bases (base : s.base = c.base) : (aside front s back).map Scanned.base =
    (front ++ c :: back).map Chunk.base := by
  simp [aside, Function.comp_def, Scanned.settled, base]

theorem settled_file (synced : c.Synced) :
    c.file = (Scanned.settled c.base c.records c.fits).file := by
  have content := synced.content
  have length := synced.2
  rw [content] at length
  obtain ⟨segment, ⟨bytes, done⟩⟩ := c
  exact congrArg₂ File.mk content length

theorem swapped_covers (laid : log.Laid lead active) (healthy : log.dir.outcomes = [])
    (synced : ∀ x ∈ lead ++ [active], x.Synced) (split : lead ++ [active] = front ++ c :: back)
    (base : s.base = c.base) : Covers (log.swapped s) (aside front s back) := by
  have ordered : ((front ++ c :: back).map Chunk.base).Pairwise (· < ·) := by
    rw [← split]
    exact laid.contiguous.ordered laid.full
  have found : ∀ x ∈ lead ++ [active], log.dir.find x.base = some x.file := by
    intro x inside
    exact find_entry laid.files laid.distinct inside
  have other : ∀ x ∈ front ++ back, (log.swapped s).find x.base =
      some (Scanned.settled x.base x.records x.fits).file := by
    intro x inside
    have member : x ∈ lead ++ [active] := by
      rw [split]
      rcases List.mem_append.mp inside with before | after
      · exact List.mem_append_left _ before
      · exact List.mem_append_right _ (List.mem_cons_of_mem _ after)
    have different : x.base ≠ s.base := by
      rw [base]
      intro same
      have apart := ordered.imp Nat.ne_of_lt
      rw [List.map_append, List.map_cons] at apart
      refine (List.nodup_middle.mp apart).notMem ?_
      rw [← List.map_append, ← same]
      exact List.mem_map_of_mem inside
    rw [← settled_file (synced x member), ← found x member]
    exact Keyed.lookup_put_other different
  have here : c ∈ lead ++ [active] := by
    rw [split]
    exact List.mem_append_right _ List.mem_cons_self
  refine ⟨⟨?_, ?_⟩, healthy, laid.named, ?_⟩
  · intro x inside
    rcases List.mem_append.mp inside with before | after
    · obtain ⟨y, member, rfl⟩ := List.mem_map.mp before
      exact other y (List.mem_append_left _ member)
    · rcases List.mem_cons.mp after with rfl | after
      · exact Dir.find_setFile (base ▸ found c here)
      · obtain ⟨y, member, rfl⟩ := List.mem_map.mp after
        exact other y (List.mem_append_right _ member)
  · rw [aside_bases base]
    exact ordered
  · rw [aside_bases base, swapped, Dir.setFile, Keyed.put_keys, laid.bases, split]

/-- What the files hold is the log without the last record of the segment. -/
theorem aside_records (contiguous : Contiguous log.firstIndex (front ++ c :: back))
    (base : s.base = c.base) {payload : Bytes} (records : c.records = s.records ++ [payload]) :
    ((aside front s back).flatMap fun s => number s.base s.records) =
      (number log.firstIndex (flat (front ++ c :: back))).filter
        (·.1 ≠ c.base + s.records.length) := by
  obtain ⟨before, here, after⟩ := contiguous_append.mp contiguous
  have whole : flat (front ++ c :: back) = (flat front ++ s.records) ++ payload :: flat back := by
    simp [flat_append, records]
  have position : c.base + s.records.length =
      log.firstIndex + (flat front ++ s.records).length := by
    rw [here, List.length_append]
    omega
  have size : c.records.length = s.records.length + 1 := by
    rw [records, List.length_append, List.length_singleton]
  have later := after.number
  rw [size] at later
  rw [whole, position, number_without, aside, List.flatMap_append, List.flatMap_cons,
    List.flatMap_map, List.flatMap_map, number_append, ← before.number, List.append_assoc]
  have next : log.firstIndex + (flat front ++ s.records).length + 1 =
      log.firstIndex + (flat front).length + (s.records.length + 1) := by
    rw [List.length_append]
    omega
  rw [next, ← later, base, ← here]
  rfl

theorem aside_sound (sound : ¬ s.Damaged) : ∀ x ∈ aside front s back, ¬ x.Damaged := by
  intro x member
  rcases List.mem_append.mp member with before | after
  · obtain ⟨y, _, rfl⟩ := List.mem_map.mp before
    exact Scanned.settled_sound _ _ _
  · rcases List.mem_cons.mp after with rfl | after
    · exact sound
    · obtain ⟨y, _, rfl⟩ := List.mem_map.mp after
      exact Scanned.settled_sound _ _ _

theorem swapped_opens (laid : log.Laid lead active) (healthy : log.dir.outcomes = [])
    (synced : ∀ x ∈ lead ++ [active], x.Synced) (split : lead ++ [active] = front ++ c :: back)
    (base : s.base = c.base) {payload : Bytes} (records : c.records = s.records ++ [payload])
    (sound : ¬ s.Damaged) (maxSegmentBytes : Nat) :
    ∃ log', (Log.open maxSegmentBytes (log.swapped s)).1 = .ok log' ∧
      (readAll log').1 = .ok ((number log.firstIndex (flat (lead ++ [active]))).filter
        (·.1 ≠ c.base + s.records.length)) := by
  have covers : Covers (log.swapped s) (aside front s back) :=
    swapped_covers laid healthy synced split base
  have opens := reopens covers (by simp [aside]) maxSegmentBytes
  obtain ⟨log', opened, read⟩ := opens.accepts (aside_sound sound)
  refine ⟨log', opened, ?_⟩
  rw [read, split, aside_records (split ▸ laid.contiguous) base records]

end Log
end WalKv
