import WalKv.Wal.Recovery

/-! How a log lies in its directory: its segments hold consecutive stretches of
the records, all but the last hold some, and the files are theirs. Another segment behind the
last and another chunk in its place keep it so. -/
namespace WalKv
open Framing (stream)

variable [Checksum] {chunks lead more : List Chunk} {active : Chunk} {first : Nat}

/-- The segments start where those before them end. -/
def Contiguous : Nat → List Chunk → Prop
  | _, [] => True
  | first, c :: rest => c.base = first ∧ Contiguous (first + c.records.length) rest

def flat (chunks : List Chunk) : List Bytes := chunks.flatMap Chunk.records

@[simp] theorem flat_nil : flat [] = [] := rfl

@[simp] theorem flat_cons (c : Chunk) (chunks : List Chunk) :
    flat (c :: chunks) = c.records ++ flat chunks := rfl

@[simp] theorem flat_append (lead more : List Chunk) :
    flat (lead ++ more) = flat lead ++ flat more := List.flatMap_append

theorem contiguous_append : Contiguous first (lead ++ more) ↔
    Contiguous first lead ∧ Contiguous (first + (flat lead).length) more := by
  induction lead generalizing first with
  | nil => simp [Contiguous, flat]
  | cons c lead ih =>
    simp only [List.cons_append, Contiguous, ih, and_assoc, flat_cons, List.length_append,
      Nat.add_assoc]

theorem Contiguous.active_base (contiguous : Contiguous first (lead ++ [active])) :
    active.base = first + (flat lead).length :=
  (contiguous_append.mp contiguous).2.1

theorem Contiguous.within (contiguous : Contiguous first chunks) {c : Chunk} (inside : c ∈ chunks) :
    first ≤ c.base ∧ c.base + c.records.length ≤ first + (flat chunks).length := by
  induction chunks generalizing first with
  | nil => cases inside
  | cons head chunks ih =>
    obtain ⟨start, rest⟩ := contiguous
    rw [flat_cons, List.length_append]
    rcases List.mem_cons.mp inside with rfl | later
    · omega
    · have := ih rest later
      omega

/-- Segments that hold records start one above the other. -/
theorem Contiguous.ordered (contiguous : Contiguous first (lead ++ [active]))
    (full : ∀ c ∈ lead, c.records ≠ []) :
    ((lead ++ [active]).map Chunk.base).Pairwise (· < ·) := by
  induction lead generalizing first with
  | nil => simp
  | cons c lead ih =>
    obtain ⟨start, rest⟩ := contiguous
    rw [List.cons_append, List.map_cons, List.pairwise_cons]
    refine ⟨fun base inside => ?_, ih rest fun x member => full x (List.mem_cons_of_mem _ member)⟩
    obtain ⟨x, member, rfl⟩ := List.mem_map.mp inside
    have above := (rest.within member).1
    have some_record := List.length_pos_iff.mpr (full c List.mem_cons_self)
    omega

/-- Numbering segment by segment is numbering throughout. -/
theorem Contiguous.number (contiguous : Contiguous first chunks) :
    (chunks.flatMap fun c => WalKv.number c.base c.records) = WalKv.number first (flat chunks) := by
  induction chunks generalizing first with
  | nil => rfl
  | cons c chunks ih =>
    obtain ⟨start, rest⟩ := contiguous
    rw [List.flatMap_cons, ih rest, flat_cons, number_append, start]

/-- What is read from segments in place. -/
def Log.listed (chunks : List Chunk) : List (Nat × Bytes) :=
  chunks.flatMap fun c => number c.base c.records

namespace Chunk

/-- The segment once it is synced. -/
def flushed (c : Chunk) : Chunk := .settled c.base c.records c.fits

theorem eq_flushed {c : Chunk} (synced : c.Synced) :
    c.segment = c.flushed.segment ∧ c.file = c.flushed.file := by
  have content := synced.content
  obtain ⟨⟨base, buffer, bytes, count⟩, ⟨written, durable⟩, records, _, size, number, _, _⟩ := c
  obtain ⟨empty, all⟩ := synced
  simp only at empty all content size number
  subst empty all content size number
  exact ⟨rfl, rfl⟩

/-- Syncing a segment whose file exists. -/
theorem sync_run (c : Chunk) {dir : Dir} (healthy : dir.outcomes = [])
    (found : dir.find c.base = some c.file) : Segment.sync (dir, c.segment) =
      (.ok (), dir.setFile c.base c.flushed.file, c.flushed.segment) := by
  obtain ⟨c', ended, outcomes, base, records, ran, synced, none⟩ := c.sync_cases found
  obtain ⟨rfl, rfl⟩ := none healthy
  have settled : c'.flushed = c.flushed := by
    simp only [flushed, records, base]
  have healthy' : (dir.setFile c.base c.flushed.file).outcomes = [] := healthy
  rw [ran, (eq_flushed (synced rfl)).1, (eq_flushed (synced rfl)).2, settled,
    Dir.with_nil healthy']

theorem intact_entry {c : Chunk} (synced : c.Synced) : c.intact.entry = c.entry := by
  rw [entry, (eq_flushed synced).2]
  exact Prod.ext rfl (congrArg (File.mk · _) (List.append_nil _))

end Chunk

namespace Log
variable {log : Log} {payload : Bytes}

/-- The log consists of the segments `lead` and of `active`, which is appended to. -/
structure Laid (log : Log) (lead : List Chunk) (active : Chunk) : Prop where
  segments : log.segments = (lead ++ [active]).map Chunk.segment
  files : log.dir.files = (lead ++ [active]).map Chunk.entry
  contiguous : Contiguous log.firstIndex (lead ++ [active])
  positive : 1 ≤ log.firstIndex
  last : log.lastIndex + 1 = log.firstIndex + (flat (lead ++ [active])).length
  full : ∀ c ∈ lead, c.records ≠ []
  named : log.dir.malformed = []

/-- The segments are those of `lead` and `active`, one above the other, and none of them holds a
record above the last index. Records may be missing between them. -/
structure Stacked (log : Log) (lead : List Chunk) (active : Chunk) : Prop where
  segments : log.segments = (lead ++ [active]).map Chunk.segment
  files : log.dir.files = (lead ++ [active]).map Chunk.entry
  ordered : ((lead ++ [active]).map Chunk.base).Pairwise (· < ·)
  below : ∀ c ∈ lead ++ [active], c.base + c.records.length ≤ log.lastIndex + 1
  full : ∀ c ∈ lead, c.records ≠ []

/-- The log with one more segment, which is empty. -/
def rotated (log : Log) : Log :=
  { log with
    dir := { log.dir with files := log.dir.files ++ [(log.lastIndex + 1, ⟨[], 0⟩)] }
    segments := log.segments ++ [⟨log.lastIndex + 1, [], 0, 0⟩] }

/-- Another chunk in the place of the active one, after operations that used up outcomes. -/
def putting (log : Log) (active active' : Chunk) (more : Nat) (outcomes : List Outcome) : Log :=
  { log with
    dir := { log.dir.setFile active.base active'.file with outcomes }
    segments := log.segments.dropLast ++ [active'.segment]
    lastIndex := log.lastIndex + more }

namespace Stacked

theorem bases (stacked : log.Stacked lead active) :
    log.dir.files.map Prod.fst = (lead ++ [active]).map Chunk.base := by
  rw [stacked.files, List.map_map]
  rfl

theorem distinct (stacked : log.Stacked lead active) : (log.dir.files.map Prod.fst).Nodup := by
  rw [stacked.bases]
  exact stacked.ordered.imp Nat.ne_of_lt

theorem absent (stacked : log.Stacked lead active) :
    active.base ∉ (lead.map Chunk.entry).map Prod.fst := by
  have distinct := stacked.distinct
  rw [stacked.files, List.map_append, List.map_append] at distinct
  have apart := (List.nodup_append.mp distinct).2.2
  intro inside
  exact apart _ inside active.base (by simp [Chunk.entry]) rfl

theorem found_active (stacked : log.Stacked lead active) :
    log.dir.find active.base = some active.file := by
  rw [Dir.find, stacked.files, List.map_append]
  exact Keyed.lookup_middle stacked.absent

theorem getLast (stacked : log.Stacked lead active) :
    log.segments.getLast? = some active.segment := by
  rw [stacked.segments]
  simp

/-- No segment starts behind a log whose last segment holds records. -/
theorem inside (stacked : log.Stacked lead active) (some_record : active.records ≠ []) :
    ∀ base ∈ (lead ++ [active]).map Chunk.base, base < log.lastIndex + 1 := by
  intro base member
  obtain ⟨c, inside, rfl⟩ := List.mem_map.mp member
  have below := stacked.below c inside
  have some_record : 0 < c.records.length := by
    rcases List.mem_append.mp inside with old | new
    · exact List.length_pos_iff.mpr (stacked.full c old)
    · rw [List.mem_singleton.mp new]
      exact List.length_pos_iff.mpr some_record
  omega

theorem unused (stacked : log.Stacked lead active) (some_record : active.records ≠ []) :
    log.dir.find (log.lastIndex + 1) = none := by
  refine Keyed.lookup_absent fun member => ?_
  rw [stacked.bases] at member
  exact Nat.lt_irrefl _ (stacked.inside some_record _ member)

theorem rotate (stacked : log.Stacked lead active) (some_record : active.records ≠ []) :
    log.rotated.Stacked (lead ++ [active]) (.settled (log.lastIndex + 1) [] fits_nil) where
  segments := by
    rw [List.map_append, ← stacked.segments]
    rfl
  files := by
    rw [List.map_append, ← stacked.files]
    rfl
  ordered := by
    rw [List.map_append, List.pairwise_append]
    refine ⟨stacked.ordered, List.pairwise_singleton _ _, fun base member next last => ?_⟩
    rw [List.map_singleton, List.mem_singleton] at last
    rw [last]
    exact stacked.inside some_record base member
  below := by
    rw [List.forall_mem_append, List.forall_mem_singleton]
    exact ⟨stacked.below, le_rfl⟩
  full := by
    rw [List.forall_mem_append, List.forall_mem_singleton]
    exact ⟨stacked.full, some_record⟩

theorem put (stacked : log.Stacked lead active) {active' : Chunk} {more : List Bytes}
    (base : active'.base = active.base) (grown : active'.records = active.records ++ more)
    (outcomes : List Outcome) :
    (log.putting active active' more.length outcomes).Stacked lead active' where
  segments := by
    simp [putting, stacked.segments]
  files := by
    simp only [putting, Dir.setFile, stacked.files, List.map_append, List.map_cons, List.map_nil,
      Chunk.entry]
    rw [base]
    exact Keyed.put_middle stacked.absent
  ordered := by
    have ordered := stacked.ordered
    rw [List.map_append] at ordered ⊢
    rwa [List.map_singleton, base]
  below := by
    have below := stacked.below
    rw [List.forall_mem_append, List.forall_mem_singleton] at below ⊢
    refine ⟨fun c member => (below.1 c member).trans ?_, ?_⟩
    · exact Nat.succ_le_succ (Nat.le_add_right _ _)
    · have last := below.2
      rw [base, grown, List.length_append]
      simp only [putting]
      omega
  full := stacked.full

end Stacked

namespace Laid

theorem stacked (laid : log.Laid lead active) : log.Stacked lead active where
  segments := laid.segments
  files := laid.files
  ordered := laid.contiguous.ordered laid.full
  below c member := by
    rw [laid.last]
    exact (laid.contiguous.within member).2
  full := laid.full

theorem bases (laid : log.Laid lead active) :
    log.dir.files.map Prod.fst = (lead ++ [active]).map Chunk.base := laid.stacked.bases

theorem distinct (laid : log.Laid lead active) : (log.dir.files.map Prod.fst).Nodup :=
  laid.stacked.distinct

theorem getLast (laid : log.Laid lead active) :
    log.segments.getLast? = some active.segment := laid.stacked.getLast

theorem starts (laid : log.Laid lead active) :
    ∃ c, (lead ++ [active]).head? = some c ∧ c.base = log.firstIndex := by
  have contiguous := laid.contiguous
  cases lead with
  | nil => exact ⟨active, rfl, contiguous.1⟩
  | cons c lead => exact ⟨c, rfl, contiguous.1⟩

theorem rotate (laid : log.Laid lead active) (some_record : active.records ≠ []) :
    log.rotated.Laid (lead ++ [active]) (.settled (log.lastIndex + 1) [] fits_nil) where
  segments := (laid.stacked.rotate some_record).segments
  files := (laid.stacked.rotate some_record).files
  contiguous := contiguous_append.mpr ⟨laid.contiguous, laid.last, trivial⟩
  positive := laid.positive
  last := by
    rw [flat_append, List.length_append, ← Nat.add_assoc]
    exact laid.last
  full := (laid.stacked.rotate some_record).full
  named := laid.named

theorem put (laid : log.Laid lead active) {active' : Chunk} {more : List Bytes}
    (base : active'.base = active.base) (grown : active'.records = active.records ++ more)
    (outcomes : List Outcome) :
    (log.putting active active' more.length outcomes).Laid lead active' where
  segments := (laid.stacked.put base grown outcomes).segments
  files := (laid.stacked.put base grown outcomes).files
  contiguous := by
    obtain ⟨before, _⟩ := contiguous_append.mp laid.contiguous
    exact contiguous_append.mpr ⟨before, base.trans laid.contiguous.active_base, trivial⟩
  positive := laid.positive
  last := by
    have last := laid.last
    simp only [putting, flat_append, flat_cons, List.length_append, grown] at last ⊢
    omega
  full := laid.full
  named := laid.named

end Laid

/-- The log once everything in it is synced. -/
def synced (log : Log) (chunks : List Chunk) : Log :=
  { log with
    dir := { log.dir with files := chunks.map (·.flushed.entry) }
    segments := chunks.map (·.flushed.segment) }

theorem flat_flushed (chunks : List Chunk) : flat (chunks.map Chunk.flushed) = flat chunks := by
  rw [flat, List.flatMap_map]
  rfl

theorem contiguous_flushed (contiguous : Contiguous first chunks) :
    Contiguous first (chunks.map Chunk.flushed) := by
  induction chunks generalizing first with
  | nil => trivial
  | cons c chunks ih => exact ⟨contiguous.1, ih contiguous.2⟩

theorem Laid.sync (laid : log.Laid lead active) :
    (log.synced (lead ++ [active])).Laid (lead.map Chunk.flushed) active.flushed where
  segments := by
    simp [synced]
  files := by
    simp [synced]
  contiguous := by
    have moved := contiguous_flushed laid.contiguous
    rwa [List.map_append] at moved
  positive := laid.positive
  last := by
    have same := flat_flushed (lead ++ [active])
    rw [List.map_append] at same
    exact same ▸ laid.last
  full c member := by
    obtain ⟨x, inside, rfl⟩ := List.mem_map.mp member
    exact laid.full x inside
  named := laid.named

/-- The records of a log with all of them on disk. -/
theorem Laid.readAll_run (laid : log.Laid lead active)
    (synced : ∀ c ∈ lead ++ [active], c.Synced) (healthy : log.dir.outcomes = []) :
    Log.readAll log = (.ok (listed (lead ++ [active])), log) := by
  have read := readSegments_run healthy (fun c => find_entry laid.files laid.distinct)
    fun c inside => (synced c inside).content
  rw [← laid.segments] at read
  simp only [Log.readAll, Fallible.bind_run, Fallible.get_run, onDir, Fallible.part_run, read]
  rfl

theorem open_empty (path : String) (maxSegmentBytes : Nat) : ∃ log,
    (Log.open maxSegmentBytes (Dir.empty path)).1 = .ok log ∧ log.Laid [] (.settled 1 [] fits_nil) ∧
      log.dir.outcomes = [] ∧ log.firstIndex = 1 :=
  ⟨_, rfl, ⟨rfl, rfl, ⟨rfl, trivial⟩, le_rfl, rfl, nofun, rfl⟩, rfl, rfl⟩

end Log
end WalKv
