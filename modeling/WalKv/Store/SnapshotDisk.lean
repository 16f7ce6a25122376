import WalKv.Store.Replay
import WalKv.Wal.Directory

/-! Snapshots as files. A snapshot is written under a temporary name, synced and
renamed, and the directory is synced before older snapshots are removed. Until the
directory is synced, a crash may undo what happened to a name since. -/
namespace WalKv

/-- `bincode` on snapshot files. -/
class SnapshotCodec where
  serialize : SnapshotFile → Except Error Bytes
  deserialize : Bytes → Except Error SnapshotFile

class LawfulSnapshotCodec [SnapshotCodec] : Prop where
  roundtrip : ∀ {file bytes}, SnapshotCodec.serialize file = .ok bytes →
    SnapshotCodec.deserialize bytes = .ok file

/-- The name of a snapshot with its index, and the same with the extension `tmp`. -/
inductive SnapshotName where
  | final (index : Nat)
  | temp (index : Nat)
  deriving DecidableEq, Repr

abbrev Listing (α : Type) := List (SnapshotName × α)

namespace Listing
variable {α : Type} {files : Listing α} {name other : SnapshotName} {a b : α} {i j : Nat}

def erase (name : SnapshotName) (files : Listing α) : Listing α := files.filter (·.1 ≠ name)

def put (name : SnapshotName) (a : α) (files : Listing α) : Listing α :=
  files.erase name ++ [(name, a)]

theorem mem_erase : (other, b) ∈ files.erase name ↔ other ≠ name ∧ (other, b) ∈ files := by
  rw [erase, List.mem_filter, decide_eq_true_eq, and_comm]

theorem mem_put : (other, b) ∈ files.put name a ↔
    other = name ∧ b = a ∨ other ≠ name ∧ (other, b) ∈ files := by
  rw [put, List.mem_append, mem_erase, List.mem_singleton, Prod.mk.injEq, or_comm]

theorem lookup_put : (files.put name a).lookup name = some a := by
  have absent : name ∉ (files.erase name).map Prod.fst := by
    intro inside
    obtain ⟨entry, member, same⟩ := List.mem_map.mp inside
    exact (mem_erase.mp (show (entry.1, entry.2) ∈ files.erase name from member)).1 same
  rw [put, List.lookup_append, Keyed.lookup_absent absent, List.lookup_cons_self]
  rfl

/-- The indices of the snapshots in a directory; temporary names are passed over. -/
def discover (files : Listing α) : List Nat :=
  files.filterMap fun
    | (.final index, _) => some index
    | (.temp _, _) => none

/-- The snapshot with the highest index. -/
def newest : Listing α → Option (Nat × α)
  | [] => none
  | (.temp _, _) :: rest => newest rest
  | (.final index, a) :: rest =>
    match newest rest with
    | some other => if index ≤ other.1 then some other else some (index, a)
    | none => some (index, a)

/-- The directory has a snapshot of the index. -/
def Has (files : Listing α) (index : Nat) : Prop := ∃ a, (.final index, a) ∈ files

theorem has_final : Has ((.final i, a) :: files) j ↔ j = i ∨ files.Has j := by
  simp [Has, exists_or]

theorem has_temp : Has ((.temp i, a) :: files) j ↔ files.Has j := by
  simp [Has]

theorem newest_none (none : files.newest = none) : ¬ files.Has j := by
  induction files with
  | nil => exact fun ⟨_, inside⟩ => nomatch inside
  | cons entry rest ih =>
    obtain ⟨index | index, b⟩ := entry
    · rw [newest] at none
      split at none
      · split_ifs at none
      · cases none
    · rw [has_temp]
      exact ih none

theorem newest_some (found : files.newest = some (i, a)) :
    (.final i, a) ∈ files ∧ ∀ j, files.Has j → j ≤ i := by
  induction files generalizing i a with
  | nil => cases found
  | cons entry rest ih =>
    obtain ⟨index | index, b⟩ := entry
    · simp only [has_final]
      rw [newest] at found
      split at found
      · rename_i other later
        obtain ⟨inside, bound⟩ := ih later
        split_ifs at found with below
        · cases found
          exact ⟨List.mem_cons_of_mem _ inside, fun j there => there.elim (· ▸ below) (bound j)⟩
        · cases found
          exact ⟨List.mem_cons_self, fun j there =>
            there.elim (·.le) fun older => (bound j older).trans (Nat.le_of_not_le below)⟩
      · rename_i none
        cases found
        exact ⟨List.mem_cons_self, fun j there =>
          there.elim (·.le) fun older => absurd older (newest_none none)⟩
    · simp only [has_temp]
      obtain ⟨inside, bound⟩ := ih found
      exact ⟨List.mem_cons_of_mem _ inside, bound⟩

end Listing

/-- A snapshot directory: its names now and when it was last synced, and how the coming
operations end. -/
structure SnapshotDisk where
  files : Listing File
  settled : Listing File
  outcomes : List Outcome

namespace SnapshotDisk

/-- The outcome of the next operation. -/
def attempt : Fallible Stop SnapshotDisk Unit := fun disk =>
  match disk.outcomes with
  | [] => (.ok (), disk)
  | .done :: rest => (.ok (), { disk with outcomes := rest })
  | .failed _ msg :: rest => (.error (.err (.io msg)), { disk with outcomes := rest })
  | .crashed :: rest => (.error .crashed, { disk with outcomes := rest })

def operate (f : SnapshotDisk → SnapshotDisk) : Fallible Stop SnapshotDisk Unit := do
  attempt
  Fallible.modify f

def onFiles (f : Listing File → Listing File) : Fallible Stop SnapshotDisk Unit :=
  operate fun disk => { disk with files := f disk.files }

def rename (index : Nat) : Fallible Stop SnapshotDisk Unit := do
  attempt
  match (← Fallible.get).files.lookup (.temp index) with
  | some file => Fallible.modify fun disk =>
    { disk with files := (disk.files.erase (.temp index)).put (.final index) file }
  | none => Fallible.stop (.err (.io "No such file or directory"))

def fsyncDir : Fallible Stop SnapshotDisk Unit :=
  operate fun disk => { disk with settled := disk.files }

/-- An error is dropped, a crash is not. -/
def forgiving (m : Fallible Stop SnapshotDisk Unit) : Fallible Stop SnapshotDisk Unit := fun disk =>
  match m disk with
  | (.error .crashed, disk) => (.error .crashed, disk)
  | (_, disk) => (.ok (), disk)

def removeSuperseded (keep : Nat) : List Nat → Fallible Stop SnapshotDisk Unit
  | [] => pure ()
  | index :: rest => do
    Fallible.when (index ≠ keep) (forgiving (onFiles (Listing.erase (.final index))))
    removeSuperseded keep rest

section Codec
variable [SnapshotCodec]

/-- `snapshot::write`. -/
def write (snapshotMeta : SnapshotMeta) (table : MemTable) : Fallible Stop SnapshotDisk Unit := do
  let bytes ← Fallible.lift ((SnapshotCodec.serialize ⟨snapshotMeta, table.map⟩).mapError .err)
  let index := snapshotMeta.lastIncludedIndex
  onFiles (Listing.put (.temp index) ⟨[], 0⟩)
  onFiles (Listing.put (.temp index) ⟨bytes, 0⟩)
  onFiles (Listing.put (.temp index) ⟨bytes, bytes.length⟩)
  rename index
  fsyncDir
  attempt
  removeSuperseded index (← Fallible.get).files.discover

/-- `snapshot::load_latest`. -/
def loadLatest (files : Listing Bytes) : Except Error (Option (SnapshotMeta × MemTable)) :=
  match files.newest with
  | none => .ok none
  | some (_, bytes) => do
    let file ← SnapshotCodec.deserialize bytes
    pure (some (file.meta', MemTable.fromParts file.data file.meta'.lastIncludedIndex))

end Codec

/-- What a crash may leave. A snapshot is one that the directory names now or named when
it was synced, with all bytes that were synced; it is missing only if one of the two does
not name it. Nothing is said of temporary files. -/
structure MayLeave (disk : SnapshotDisk) (left : Listing Bytes) : Prop where
  origin : ∀ i bytes, (.final i, bytes) ∈ left → ∃ file n,
    ((.final i, file) ∈ disk.files ∨ (.final i, file) ∈ disk.settled) ∧ file.synced ≤ n ∧
      bytes = file.content.take n
  present : ∀ i, disk.files.Has i → disk.settled.Has i → left.Has i

theorem mayLeave_current (disk : SnapshotDisk) :
    disk.MayLeave (disk.files.map fun (name, file) => (name, file.content)) where
  origin i bytes there := by
    obtain ⟨⟨name, file⟩, inside, same⟩ := List.mem_map.mp there
    cases same
    exact ⟨file, max file.synced file.content.length, .inl inside, Nat.le_max_left _ _,
      (List.take_of_length_le (Nat.le_max_right _ _)).symm⟩
  present i := fun ⟨file, inside⟩ _ => ⟨file.content, List.mem_map.mpr ⟨_, inside, rfl⟩⟩

/-- How far a write has come: the snapshots that were there are still named, or the new
one is named for good. -/
structure Progress (before : SnapshotDisk) (index : Nat) (file : File) (disk : SnapshotDisk) : Prop where
  origin : ∀ i f, (.final i, f) ∈ disk.files ∨ (.final i, f) ∈ disk.settled →
    ((.final i, f) ∈ before.files ∨ (.final i, f) ∈ before.settled) ∨ i = index ∧ f = file
  named : (∀ i, before.files.Has i → disk.files.Has i) ∧ (∀ i, before.settled.Has i → disk.settled.Has i) ∨
    (.final index, file) ∈ disk.files ∧ (.final index, file) ∈ disk.settled

namespace Progress
variable {before disk t : SnapshotDisk} {index : Nat} {file : File}

/-- Nothing but temporary files has changed. -/
def Early (before disk : SnapshotDisk) : Prop :=
  (∀ i f, (.final i, f) ∈ disk.files ↔ (.final i, f) ∈ before.files) ∧ disk.settled = before.settled

/-- The new file has its name. -/
def Renamed (before : SnapshotDisk) (index : Nat) (file : File) (files : Listing File) : Prop :=
  ∀ i f, (.final i, f) ∈ files ↔ i = index ∧ f = file ∨ i ≠ index ∧ (.final i, f) ∈ before.files

theorem early (early : Early before disk) : Progress before index file disk where
  origin i f there := by
    rw [early.1, early.2] at there
    exact .inl there
  named := .inl ⟨fun i ⟨f, there⟩ => ⟨f, (early.1 i f).mpr there⟩, fun i there => early.2 ▸ there⟩

theorem renamed (renamed : Renamed before index file disk.files)
    (settled : disk.settled = before.settled) : Progress before index file disk where
  origin i f there := by
    rw [renamed, settled] at there
    rcases there with (new | ⟨_, old⟩) | old
    · exact .inr new
    · exact .inl (.inl old)
    · exact .inl (.inr old)
  named := by
    refine .inl ⟨fun i ⟨f, there⟩ => ?_, fun i there => settled ▸ there⟩
    by_cases same : i = index
    · exact ⟨file, (renamed i file).mpr (.inl ⟨same, rfl⟩)⟩
    · exact ⟨f, (renamed i f).mpr (.inr ⟨same, there⟩)⟩

/-- The new name is durable; older snapshots may be gone. -/
structure Durable (before : SnapshotDisk) (index : Nat) (file : File) (disk : SnapshotDisk) : Prop where
  settled : Renamed before index file disk.settled
  current : (.final index, file) ∈ disk.files
  fewer : ∀ entry ∈ disk.files, entry ∈ disk.settled

theorem durable (durable : Durable before index file disk) : Progress before index file disk where
  origin i f there := by
    have there : (.final i, f) ∈ disk.settled := there.elim (durable.fewer _) id
    rcases (durable.settled i f).mp there with new | ⟨_, old⟩
    · exact .inr new
    · exact .inl (.inl old)
  named := .inr ⟨durable.current, (durable.settled index file).mpr (.inl ⟨rfl, rfl⟩)⟩

end Progress

section Running
open WalKv.SnapshotDisk.Progress
variable {before disk : SnapshotDisk} {index : Nat} {file : File}

theorem attempt_leads {stopped : SnapshotDisk → Prop} {returned : Unit → SnapshotDisk → Prop}
    (unchanged : ∀ outcomes, stopped { disk with outcomes })
    (done : ∀ outcomes, returned () { disk with outcomes }) :
    Fallible.Leads attempt disk stopped returned := by
  obtain ⟨files, settled, outcomes⟩ := disk
  rcases outcomes with _ | ⟨_ | _ | _, rest⟩
  · exact done []
  · exact done rest
  · exact unchanged rest
  · exact unchanged rest

theorem operate_leads {f : SnapshotDisk → SnapshotDisk} {stopped : SnapshotDisk → Prop}
    {returned : Unit → SnapshotDisk → Prop} (unchanged : ∀ outcomes, stopped { disk with outcomes })
    (done : ∀ outcomes, returned () (f { disk with outcomes })) :
    Fallible.Leads (operate f) disk stopped returned := by
  have attempted : Fallible.Leads attempt disk stopped fun _ t => returned () (f t) :=
    attempt_leads unchanged done
  exact attempted.bind fun _ _ done => done

theorem temp_leads (early : Early before disk) (written : File) :
    Fallible.Leads (onFiles (Listing.put (.temp index) written)) disk (Progress before index file)
      fun _ t => Early before t ∧ t.files.lookup (.temp index) = some written := by
  refine operate_leads (fun _ => Progress.early early)
    fun _ => ⟨⟨fun i f => ?_, early.2⟩, Listing.lookup_put⟩
  rw [Listing.mem_put, ← early.1]
  simp

theorem rename_leads (early : Early before disk) (written : disk.files.lookup (.temp index) = some file) :
    Fallible.Leads (rename index) disk (Progress before index file)
      fun _ t => Renamed before index file t.files ∧ t.settled = before.settled := by
  have attempted : Fallible.Leads attempt disk (Progress before index file)
      fun _ t => Early before t ∧ t.files.lookup (.temp index) = some file :=
    attempt_leads (fun _ => Progress.early early) fun _ => ⟨early, written⟩
  refine attempted.bind fun _ t ⟨early, written⟩ => ?_
  rw [Fallible.Leads]
  simp only [Fallible.bind_run, Fallible.get_run, written, Fallible.modify_run]
  refine ⟨fun i f => ?_, early.2⟩
  rw [Listing.mem_put, Listing.mem_erase, ← early.1]
  simp

theorem fsyncDir_leads (renamed : Renamed before index file disk.files)
    (settled : disk.settled = before.settled) :
    Fallible.Leads fsyncDir disk (Progress before index file) fun _ => Durable before index file :=
  operate_leads (fun _ => Progress.renamed renamed settled)
    fun _ => ⟨renamed, (renamed _ _).mpr (.inl ⟨rfl, rfl⟩), fun _ => id⟩

theorem listing_leads (durable : Durable before index file disk) :
    Fallible.Leads attempt disk (Progress before index file) fun _ => Durable before index file :=
  attempt_leads (fun _ => Progress.durable ⟨durable.settled, durable.current, durable.fewer⟩)
    fun _ => ⟨durable.settled, durable.current, durable.fewer⟩

theorem forgiving_leads {m : Fallible Stop SnapshotDisk Unit} {kept : SnapshotDisk → Prop}
    (leads : Fallible.Leads m disk kept fun _ => kept) :
    Fallible.Leads (forgiving m) disk kept fun _ => kept := by
  have ends := leads.either fun _ _ => id
  rw [Fallible.Leads, forgiving]
  rcases ran : m disk with ⟨(_ | _ | _) | _, t⟩ <;> rw [ran] at ends <;> exact ends

theorem removeSuperseded_leads (listed : List Nat) (durable : Durable before index file disk) :
    Fallible.Leads (removeSuperseded index listed) disk (Durable before index file)
      fun _ => Durable before index file := by
  induction listed generalizing disk with
  | nil => exact durable
  | cons other rest ih =>
    refine Fallible.Leads.bind ?_ fun _ t durable => ih durable
    by_cases superseded : other ≠ index
    · rw [Fallible.when, if_pos superseded]
      refine forgiving_leads (operate_leads (fun _ => ⟨durable.settled, durable.current, durable.fewer⟩)
        fun _ => ⟨durable.settled, ?_, fun entry there => ?_⟩)
      · exact Listing.mem_erase.mpr ⟨by simpa using superseded.symm, durable.current⟩
      · exact durable.fewer entry (Listing.mem_erase.mp there).2
    · rw [Fallible.when, if_neg superseded]
      exact durable

theorem write_leads [SnapshotCodec] {snapshotMeta : SnapshotMeta} {table : MemTable} {bytes : Bytes}
    (encoded : SnapshotCodec.serialize ⟨snapshotMeta, table.map⟩ = .ok bytes)
    (place : snapshotMeta.lastIncludedIndex = index) (whole : file = ⟨bytes, bytes.length⟩) :
    Fallible.Leads (write snapshotMeta table) disk (Progress disk index file)
      fun _ => Durable disk index file := by
  subst place whole
  have begun : Early disk disk := ⟨fun _ _ => Iff.rfl, rfl⟩
  rw [write, encoded]
  refine Fallible.Leads.ok_bind ?_
  refine (temp_leads begun _).bind fun _ t ⟨created, _⟩ => ?_
  refine (temp_leads created _).bind fun _ t ⟨filled, _⟩ => ?_
  refine (temp_leads filled _).bind fun _ t ⟨synced, there⟩ => ?_
  refine (rename_leads synced there).bind fun _ t ⟨renamed, settled⟩ => ?_
  refine (fsyncDir_leads renamed settled).bind fun _ t durable => ?_
  refine (listing_leads durable).bind fun _ t durable => ?_
  exact (removeSuperseded_leads t.files.discover durable).mono fun _ => Progress.durable

end Running

section Loading
variable [SnapshotCodec] {disk before : SnapshotDisk} {content : Nat → SnapshotFile}
  {left : Listing Bytes} {newest : Option Nat} {index : Nat} {file : File}

/-- What is loaded from a snapshot file. -/
def loaded (file : SnapshotFile) : SnapshotMeta × MemTable :=
  (file.meta', MemTable.fromParts file.data file.meta'.lastIncludedIndex)

/-- The file holds a snapshot, all of it synced. -/
def Whole (snapshot : SnapshotFile) (file : File) : Prop :=
  file.synced = file.content.length ∧ SnapshotCodec.serialize snapshot = .ok file.content

/-- Every snapshot of the directory is whole and the newest one will stay. -/
structure Kept (disk : SnapshotDisk) (content : Nat → SnapshotFile) (newest : Option Nat) : Prop where
  whole : ∀ i f, (.final i, f) ∈ disk.files ∨ (.final i, f) ∈ disk.settled →
    Whole (content i) f ∧ ∃ n ∈ newest, i ≤ n
  named : ∀ n ∈ newest, disk.files.Has n ∧ disk.settled.Has n

theorem Whole.deserialize [LawfulSnapshotCodec] {snapshot : SnapshotFile} {n : Nat}
    (whole : Whole snapshot file) (kept : file.synced ≤ n) :
    SnapshotCodec.deserialize (file.content.take n) = .ok snapshot := by
  rw [List.take_of_length_le (whole.1 ▸ kept)]
  exact LawfulSnapshotCodec.roundtrip whole.2

theorem loadLatest_eq (whole : ∀ i bytes, (.final i, bytes) ∈ left →
    SnapshotCodec.deserialize bytes = .ok (content i)) :
    loadLatest left = .ok (left.newest.map fun entry => loaded (content entry.1)) := by
  rw [loadLatest]
  rcases found : left.newest with _ | ⟨i, bytes⟩
  · rfl
  · simp only [whole i bytes (Listing.newest_some found).1]
    rfl

theorem Progress.load [LawfulSnapshotCodec] {disk' : SnapshotDisk}
    (progress : Progress disk index file disk') (kept : disk.Kept content newest) (new : Whole (content index) file)
    (above : ∀ n ∈ newest, n ≤ index) (leaves : disk'.MayLeave left) :
    loadLatest left = .ok (newest.map (loaded ∘ content)) ∨
      loadLatest left = .ok (some (loaded (content index))) := by
  have origin : ∀ i bytes, (.final i, bytes) ∈ left →
      SnapshotCodec.deserialize bytes = .ok (content i) ∧ ((∃ n ∈ newest, i ≤ n) ∨ i = index) := by
    intro i bytes there
    obtain ⟨f, n, named, synced, rfl⟩ := leaves.origin i bytes there
    rcases progress.origin i f named with old | ⟨rfl, rfl⟩
    · obtain ⟨whole, below⟩ := kept.whole i f old
      exact ⟨whole.deserialize synced, .inl below⟩
    · exact ⟨new.deserialize synced, .inr rfl⟩
  have stays : (∀ n ∈ newest, left.Has n) ∨ left.Has index := by
    refine progress.named.imp (fun ⟨files, settled⟩ n latest => ?_) fun ⟨files, settled⟩ => ?_
    · obtain ⟨now, durable⟩ := kept.named n latest
      exact leaves.present n (files n now) (settled n durable)
    · exact leaves.present index ⟨_, files⟩ ⟨_, settled⟩
  rw [loadLatest_eq fun i bytes there => (origin i bytes there).1]
  rcases found : left.newest with _ | ⟨i, bytes⟩
  · rcases newest with _ | n
    · exact .inl rfl
    · rcases stays with old | new
      · exact absurd (old n rfl) (Listing.newest_none found)
      · exact absurd new (Listing.newest_none found)
  · obtain ⟨there, most⟩ := Listing.newest_some found
    rcases (origin i bytes there).2 with ⟨n, latest, below⟩ | rfl
    · rcases stays with old | new
      · have same : i = n := le_antisymm below (most n (old n latest))
        left
        rw [latest, same]
        rfl
      · have same : i = index := le_antisymm (below.trans (above n latest)) (most index new)
        exact .inr (by rw [same]; rfl)
    · exact .inr rfl

theorem Progress.Durable.kept {disk' : SnapshotDisk} (durable : Progress.Durable disk index file disk')
    (kept : disk.Kept content newest) (new : Whole (content index) file)
    (above : ∀ n ∈ newest, n ≤ index) : disk'.Kept content (some index) := by
  refine ⟨fun i f there => ?_, fun n same => ?_⟩
  · rcases (Progress.durable durable).origin i f there with old | ⟨rfl, rfl⟩
    · obtain ⟨whole, n, latest, below⟩ := kept.whole i f old
      exact ⟨whole, index, rfl, below.trans (above n latest)⟩
    · exact ⟨new, i, rfl, le_rfl⟩
  · cases same
    exact ⟨⟨file, durable.current⟩, ⟨file, (durable.settled index file).mpr (.inl ⟨rfl, rfl⟩)⟩⟩

theorem Kept.load [LawfulSnapshotCodec] (kept : disk.Kept content newest) (leaves : disk.MayLeave left) :
    loadLatest left = .ok (newest.map (loaded ∘ content)) := by
  cases newest with
  | none =>
    have empty : left.newest = none := by
      by_contra some
      obtain ⟨⟨i, bytes⟩, found⟩ := Option.ne_none_iff_exists'.mp some
      obtain ⟨f, _, named, _⟩ := leaves.origin i bytes (Listing.newest_some found).1
      obtain ⟨_, _, none, _⟩ := kept.whole i f named
      cases none
    rw [loadLatest, empty]
    rfl
  | some n =>
    obtain ⟨⟨f, there⟩, _⟩ := kept.named n rfl
    have idle : Progress disk n f disk := Progress.early ⟨fun _ _ => Iff.rfl, rfl⟩
    exact (idle.load kept (kept.whole n f (.inl there)).1 (fun m same => by cases same; exact le_rfl)
      leaves).elim id id

variable {snapshotMeta : SnapshotMeta} {table : MemTable} {disk' : SnapshotDisk}

theorem Kept.written (kept : disk.Kept content newest)
    (new : ⟨snapshotMeta, table.map⟩ = content snapshotMeta.lastIncludedIndex)
    (above : ∀ n ∈ newest, n ≤ snapshotMeta.lastIncludedIndex)
    (ran : write snapshotMeta table disk = (.ok (), disk')) :
    disk'.Kept content (some snapshotMeta.lastIncludedIndex) := by
  obtain ⟨bytes, _, encoded, _⟩ := Fallible.of_bind_ok ran
  have encoded := Except.of_mapError_ok (congrArg Prod.fst encoded)
  have durable := (write_leads encoded rfl rfl).returns ran
  exact durable.kept kept ⟨rfl, new ▸ encoded⟩ above

theorem Kept.stopped [LawfulSnapshotCodec] (kept : disk.Kept content newest)
    (new : ⟨snapshotMeta, table.map⟩ = content snapshotMeta.lastIncludedIndex)
    (above : ∀ n ∈ newest, n ≤ snapshotMeta.lastIncludedIndex) {stop : Stop}
    (ran : write snapshotMeta table disk = (.error stop, disk')) (leaves : disk'.MayLeave left) :
    loadLatest left = .ok (newest.map (loaded ∘ content)) ∨
      loadLatest left = .ok (some (loaded (content snapshotMeta.lastIncludedIndex))) := by
  cases encoded : SnapshotCodec.serialize ⟨snapshotMeta, table.map⟩ with
  | error error =>
    rw [write, encoded] at ran
    cases ran
    exact .inl (kept.load leaves)
  | ok bytes =>
    have progress := (write_leads encoded rfl rfl).stops ran
    exact progress.load kept ⟨rfl, new ▸ encoded⟩ above leaves

end Loading
end SnapshotDisk
end WalKv
