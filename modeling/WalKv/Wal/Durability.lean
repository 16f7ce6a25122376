import WalKv.Wal.Crash
import WalKv.Wal.Truncation

/-! Power loss. The log never syncs its directory, so the crash may undo the creation
of every file and the removal of every file: a name may be gone again, or stand for a
file that was removed. What is synced is left if the crash does neither to a file that
matters. -/
namespace WalKv
open Framing (stream whole)

/-- What a power loss makes of a name: nothing, the file it stands for, or one that it
stood for before. Of a file it leaves what is synced and perhaps some bytes more. -/
inductive Fate where
  | gone
  | current (kept : Nat)
  | former (version kept : Nat)
  deriving DecidableEq, Repr

/-- A log, the files that were removed from its directory, its records, and how many of
them the last sync covered. -/
structure Written where
  log : Log
  removed : List (Nat × File)
  held : List Bytes
  synced : Nat
  deriving DecidableEq, Repr

inductive Update where
  | append (payload : Bytes)
  | sync
  | truncateSuffix (keepLast : Nat)
  deriving DecidableEq, Repr

def Update.payload? : Update → Option Bytes
  | .append payload => some payload
  | _ => none

namespace Written

def cut (kept : Nat) (bytes : Bytes) (synced : Nat) : File :=
  let bytes := bytes.take (max synced kept)
  ⟨bytes, bytes.length⟩

/-- The file a name stands for after the power loss. -/
def survivor (w : Written) (base : Nat) : Fate → Option File
  | .gone => none
  | .current kept => (w.log.dir.find base).map fun file =>
    cut kept (w.log.appended (base, file)) file.synced
  | .former version kept => (w.removed.filter (·.1 = base))[version]?.map fun entry =>
    cut kept entry.2.content entry.2.synced

/-- The names that files have or had. -/
def names (w : Written) : List Nat :=
  let present := w.log.dir.files.map Prod.fst
  present ++ ((w.removed.map Prod.fst).filter (· ∉ present)).eraseDups

def powerLoss (w : Written) (fate : Nat → Fate) : Dir :=
  { w.log.dir with
    outcomes := []
    files := w.names.filterMap fun base => (w.survivor base (fate base)).map (base, ·) }

section Records
variable [Checksum]

def update (w : Written) : Update → Except Stop Written
  | .append payload =>
    match Log.append payload w.log with
    | (.ok _, log) => .ok { w with log, held := w.held ++ [payload] }
    | (.error stop, _) => .error stop
  | .sync =>
    match Log.sync w.log with
    | (.ok _, log) => .ok { w with log, synced := w.held.length }
    | (.error stop, _) => .error stop
  | .truncateSuffix keepLast =>
    match Log.truncateSuffix keepLast w.log with
    | (.ok _, log) => .ok
      { log
        removed := w.removed ++ w.log.dir.files.filter (· ∉ log.dir.files)
        held := w.held.take keepLast
        synced := min w.synced keepLast }
    | (.error stop, _) => .error stop

def run : List Update → Written → Except Stop Written
  | [], w => .ok w
  | update :: updates, w => do
    let w ← w.update update
    run updates w

/-- All updates of a log in a directory that was empty. -/
def written (path : String) (maxSegmentBytes : Nat) (updates : List Update) : Except Stop Written := do
  let log ← (Log.open maxSegmentBytes (Dir.empty path)).1
  run updates ⟨log, [], [], 0⟩

/-- Reopening gives exactly the records the last sync covered, as far as these go, and
no record that the log did not hold. -/
def Recovered (w : Written) (reopened : Except Stop Log) : Prop :=
  ∃ log records, reopened = .ok log ∧ (Log.readAll log).1 = .ok records ∧
    (∀ record, record.1 ≤ w.synced → (record ∈ records ↔ record ∈ number 1 (w.held.take w.synced))) ∧
    ∀ record ∈ records, record ∈ number 1 w.held

/-- The power loss brings no removed file back and takes no file away that holds a
synced record. -/
structure Spares (w : Written) (fate : Nat → Fate) : Prop where
  removals : ∀ base ∈ w.names, ∀ version kept, fate base ≠ .former version kept
  creations : ∀ entry ∈ w.log.dir.files, entry.1 ≤ w.synced → fate entry.1 ≠ .gone

/-- A truncation comes with all records synced. -/
def Disciplined : Bool → List Update → Prop
  | _, [] => True
  | _, .append _ :: rest => Disciplined true rest
  | _, .sync :: rest => Disciplined false rest
  | unsynced, .truncateSuffix _ :: rest => unsynced = false ∧ Disciplined false rest

variable {w : Written} {unsynced : Bool} {lead : List Chunk} {active : Chunk}

/-- How the log and its records stand to each other. -/
structure Stands (w : Written) (unsynced : Bool) (lead : List Chunk) (active : Chunk) : Prop where
  laid : w.log.Laid lead active
  healthy : w.log.dir.outcomes = []
  first : w.log.firstIndex = 1
  records : flat (lead ++ [active]) = w.held
  bounded : w.synced ≤ w.held.length
  durable : ∀ c ∈ lead ++ [active],
    (stream frame (c.records.take (w.synced + 1 - c.base))).length ≤ c.file.synced
  clean : unsynced = false → ∀ c ∈ lead ++ [active], c.Synced

theorem durable_of_synced {c : Chunk} (synced : c.Synced) (n : Nat) :
    (stream frame (c.records.take n)).length ≤ c.file.synced := by
  rw [synced.2, synced.content]
  exact (Framing.stream_prefix (List.take_prefix _ _)).length_le

theorem Stands.append (stands : w.Stands unsynced lead active) {payload : Bytes}
    (small : payload.length ≤ maxRecordLen) : ∃ w' lead' active',
      w.update (.append payload) = .ok w' ∧ w'.Stands true lead' active' := by
  obtain ⟨log', lead', active', appended, laid, healthy, first, grown, place⟩ :=
    stands.laid.append stands.healthy small
  have last := stands.laid.last
  have base := stands.laid.contiguous.active_base
  have bounded := stands.bounded
  have total := congrArg List.length stands.records
  rw [stands.first] at last base
  simp only [flat_append, flat_cons, flat_nil, List.append_nil, List.length_append] at last total
  refine ⟨{ w with log := log', held := w.held ++ [payload] }, lead', active', ?_, laid, healthy,
    first.trans stands.first, by rw [grown, stands.records], ?_, ?_, nofun⟩
  · rw [update, appended]
  · simp only [List.length_append]
    omega
  · intro c member
    show (stream frame (c.records.take (w.synced + 1 - c.base))).length ≤ c.file.synced
    rcases place with ⟨rfl, base', records, synced⟩ | ⟨rfl, base'⟩
    · rcases List.mem_append.mp member with old | new
      · exact stands.durable c (List.mem_append_left _ old)
      · rw [List.mem_singleton.mp new, base', records, synced,
          List.take_append_of_le_length (by omega)]
        exact stands.durable active (by simp)
    · rcases List.mem_append.mp member with old | new
      · exact stands.durable c old
      · rw [List.mem_singleton.mp new, base', Nat.sub_eq_zero_of_le (by omega)]
        exact Nat.zero_le _

theorem Stands.sync (stands : w.Stands unsynced lead active) : ∃ w' lead' active',
    w.update .sync = .ok w' ∧ w'.Stands false lead' active' := by
  have flushed : ∀ c ∈ lead.map Chunk.flushed ++ [active.flushed], c.Synced := by
    intro c member
    rw [← List.map_singleton, ← List.map_append] at member
    obtain ⟨x, _, rfl⟩ := List.mem_map.mp member
    exact Chunk.settled_synced _ _ _
  refine ⟨{ w with log := w.log.synced (lead ++ [active]), synced := w.held.length }, _, _, ?_,
    stands.laid.sync, stands.healthy, stands.first, ?_, le_rfl,
    fun c member => durable_of_synced (flushed c member) _, fun _ => flushed⟩
  · rw [update, stands.laid.sync_run stands.healthy]
  · rw [← stands.records, ← Log.flat_flushed (lead ++ [active]), List.map_append]
    rfl

theorem Stands.truncateSuffix (stands : w.Stands false lead active) (keepLast : Nat) :
    ∃ w' lead' active', w.update (.truncateSuffix keepLast) = .ok w' ∧
      w'.Stands false lead' active' := by
  have last := stands.laid.last
  have bounded := stands.bounded
  rw [stands.first, stands.records] at last
  by_cases beyond : w.log.lastIndex ≤ keepLast
  · have kept : Log.truncateSuffix keepLast w.log = (.ok (), w.log) := by
      simp only [Log.truncateSuffix, Fallible.bind_run, Fallible.get_run, if_pos beyond,
        Fallible.pure_run]
    have all : w.held.take keepLast = w.held := List.take_of_length_le (by omega)
    have same : min w.synced keepLast = w.synced := by omega
    have none : w.log.dir.files.filter (· ∉ w.log.dir.files) = [] := by
      simp
    refine ⟨w, lead, active, ?_, stands⟩
    rw [update, kept]
    simp only [none, List.append_nil, all, same]
  · obtain ⟨log', front, c, ran, laid, healthy, first, kept, durable⟩ :=
      stands.laid.truncateSuffix_synced (stands.clean rfl) stands.healthy
        (by rw [stands.first]; omega) (Nat.lt_of_not_le beyond)
    refine ⟨_, front, c, by rw [update, ran], laid, healthy, first.trans stands.first, ?_, ?_,
      fun x member => durable_of_synced (durable x member) _, fun _ => durable⟩
    · rw [kept, stands.records, stands.first, Nat.add_sub_cancel]
    · simp only [List.length_take]
      omega

theorem Stands.update {update : Update} {rest : List Update}
    (stands : w.Stands unsynced lead active)
    (small : ∀ payload ∈ update.payload?, payload.length ≤ maxRecordLen)
    (disciplined : Disciplined unsynced (update :: rest)) : ∃ w' unsynced' lead' active',
      w.update update = .ok w' ∧ w'.Stands unsynced' lead' active' ∧ Disciplined unsynced' rest := by
  cases update with
  | append payload =>
    obtain ⟨w', lead', active', ran, stands'⟩ := stands.append (small payload rfl)
    exact ⟨w', true, lead', active', ran, stands', disciplined⟩
  | sync =>
    obtain ⟨w', lead', active', ran, stands'⟩ := stands.sync
    exact ⟨w', false, lead', active', ran, stands', disciplined⟩
  | truncateSuffix keepLast =>
    obtain ⟨rfl, later⟩ := disciplined
    obtain ⟨w', lead', active', ran, stands'⟩ := stands.truncateSuffix keepLast
    exact ⟨w', false, lead', active', ran, stands', later⟩

theorem Stands.run (updates : List Update) (stands : w.Stands unsynced lead active)
    (small : Fits (updates.filterMap Update.payload?)) (disciplined : Disciplined unsynced updates) :
    ∃ w' unsynced' lead' active', Written.run updates w = .ok w' ∧
      w'.Stands unsynced' lead' active' := by
  induction updates generalizing w unsynced lead active with
  | nil => exact ⟨w, unsynced, lead, active, rfl, stands⟩
  | cons update updates ih =>
    have here : ∀ payload ∈ update.payload?, payload.length ≤ maxRecordLen := fun payload found =>
      small payload (List.mem_filterMap.mpr ⟨update, List.mem_cons_self, found⟩)
    have later : Fits (updates.filterMap Update.payload?) := by
      intro payload inside
      obtain ⟨x, member, found⟩ := List.mem_filterMap.mp inside
      exact small payload (List.mem_filterMap.mpr ⟨x, List.mem_cons_of_mem _ member, found⟩)
    obtain ⟨w', unsynced', lead', active', ran, stands', disciplined'⟩ :=
      stands.update here disciplined
    obtain ⟨w'', unsynced'', lead'', active'', ran', stands''⟩ := ih stands' later disciplined'
    refine ⟨w'', unsynced'', lead'', active'', ?_, stands''⟩
    rw [Written.run, ran]
    exact ran'

/-- What a power loss leaves of a segment. -/
def left (fate : Nat → Fate) (c : Chunk) : Option Remnant :=
  match fate c.base with
  | .current kept => some (c.remnant (max c.file.synced kept))
  | _ => none

theorem left_some {fate : Nat → Fate} {c : Chunk} {r : Remnant} (found : left fate c = some r) :
    ∃ kept, fate c.base = .current kept ∧ r = c.remnant (max c.file.synced kept) := by
  rw [left] at found
  cases chosen : fate c.base with
  | gone => rw [chosen] at found; cases found
  | current kept =>
    rw [chosen] at found
    exact ⟨kept, rfl, (Option.some.inj found).symm⟩
  | former version kept => rw [chosen] at found; cases found

theorem Stands.powerLoss_files (stands : w.Stands unsynced lead active) {fate : Nat → Fate}
    (spares : w.Spares fate) : (w.powerLoss fate).files =
      ((lead ++ [active]).filterMap (left fate)).map Remnant.entry := by
  have present : w.log.dir.files.map Prod.fst = (lead ++ [active]).map Chunk.base := stands.laid.bases
  have absent : (((w.removed.map Prod.fst).filter
      (· ∉ (lead ++ [active]).map Chunk.base)).eraseDups.filterMap fun base =>
        (w.survivor base (fate base)).map (base, ·)) = [] := by
    rw [List.filterMap_eq_nil_iff]
    intro base member
    have named : base ∈ w.names := by
      rw [names, present]
      exact List.mem_append_right _ member
    have missing := of_decide_eq_true (List.mem_filter.mp (List.mem_eraseDups.mp member)).2
    rw [← present] at missing
    cases chosen : fate base with
    | gone => rfl
    | current kept =>
      rw [survivor, Dir.find, Keyed.lookup_absent missing]
      rfl
    | former version kept => exact absurd chosen (spares.removals base named version kept)
  have remains : ((lead ++ [active]).map Chunk.base).filterMap
      (fun base => (w.survivor base (fate base)).map (base, ·)) =
      ((lead ++ [active]).filterMap (left fate)).map Remnant.entry := by
    rw [List.filterMap_map, List.map_filterMap]
    refine List.filterMap_congr fun c member => ?_
    have named : c.base ∈ w.names := by
      rw [names, present]
      exact List.mem_append_left _ (List.mem_map_of_mem member)
    rw [Function.comp_apply, left]
    cases chosen : fate c.base with
    | gone => rfl
    | current kept =>
      have found := Log.find_entry stands.laid.files stands.laid.distinct member
      have appended := stands.laid.appended member
      rw [survivor, found, Option.map_some, Option.map_some, Option.map_some, Chunk.remnant_entry, cut]
      rw [Chunk.entry] at appended
      rw [appended]
    | former version kept => exact absurd chosen (spares.removals c.base named version kept)
  rw [powerLoss, names, present]
  simp only
  rw [List.filterMap_append, absent, List.append_nil, remains]

theorem Stands.listed (stands : w.Stands unsynced lead active) :
    number 1 w.held = Log.listed (lead ++ [active]) := by
  rw [← stands.records, ← stands.first]
  exact stands.laid.contiguous.number.symm

theorem Stands.synced_left (stands : w.Stands unsynced lead active) {fate : Nat → Fate}
    (spares : w.Spares fate) {c : Chunk} (member : c ∈ lead ++ [active]) {record : Nat × Bytes}
    (held : record ∈ number c.base c.records) (below : record.1 ≤ w.synced) :
    ∃ r, left fate c = some r ∧ record ∈ number r.base r.records := by
  obtain ⟨from_base, found⟩ := mem_number.mp held
  have file : c.entry ∈ w.log.dir.files := by
    rw [stands.laid.files]
    exact List.mem_map_of_mem member
  have named : c.base ∈ w.names := List.mem_append_left _ (List.mem_map_of_mem file)
  rw [left]
  cases chosen : fate c.base with
  | gone => exact absurd chosen (spares.creations c.entry file (from_base.trans below))
  | former version kept => exact absurd chosen (spares.removals c.base named version kept)
  | current kept =>
    refine ⟨_, rfl, mem_number_take.mpr ⟨held, ?_⟩⟩
    obtain ⟨within, _⟩ := List.getElem?_eq_some_iff.mp found
    have reached : record.1 - c.base + 1 ≤ whole frame c.records (max c.file.synced kept) := by
      rw [Framing.le_whole_iff within]
      have few : c.records.take (record.1 - c.base + 1) <+: c.records.take (w.synced + 1 - c.base) :=
        List.take_prefix_take_left (by omega)
      exact (Framing.stream_prefix few).length_le.trans
        ((stands.durable c member).trans (Nat.le_max_left _ _))
    show record.1 < c.base + whole frame c.records (max c.file.synced kept)
    omega

theorem Stands.recovered (stands : w.Stands unsynced lead active) {fate : Nat → Fate}
    (spares : w.Spares fate) (maxSegmentBytes : Nat) :
    w.Recovered (Log.open maxSegmentBytes (w.powerLoss fate)).1 := by
  have ordered : (((lead ++ [active]).filterMap (left fate)).map Remnant.base).Pairwise (· < ·) := by
    have ordered := stands.laid.contiguous.ordered stands.laid.full
    rw [List.pairwise_map] at ordered ⊢
    refine List.pairwise_filterMap.mpr (ordered.imp fun below r found r' found' => ?_)
    obtain ⟨_, _, rfl⟩ := left_some found
    obtain ⟨_, _, rfl⟩ := left_some found'
    exact below
  have named : (w.powerLoss fate).malformed = [] := stands.laid.named
  obtain ⟨log, reopened, read⟩ := Log.reopen_remnants maxSegmentBytes rfl named
    (stands.powerLoss_files spares) ordered
  have inside : ∀ record ∈ ((lead ++ [active]).filterMap (left fate)).flatMap
      (fun r => number r.base r.records), record ∈ number 1 w.held := by
    intro record found
    obtain ⟨r, member, found⟩ := List.mem_flatMap.mp found
    obtain ⟨c, inside, remains⟩ := List.mem_filterMap.mp member
    obtain ⟨kept, _, rfl⟩ := left_some remains
    rw [stands.listed]
    exact List.mem_flatMap.mpr ⟨c, inside, (mem_number_take.mp found).1⟩
  refine ⟨log, _, reopened, read, fun record below => ⟨fun found => ?_, fun held => ?_⟩, inside⟩
  · exact mem_number_take.mpr ⟨inside _ found, by omega⟩
  · have held := (mem_number_take.mp held).1
    rw [stands.listed] at held
    obtain ⟨c, member, there⟩ := List.mem_flatMap.mp held
    obtain ⟨r, remains, left⟩ := stands.synced_left spares member there below
    exact List.mem_flatMap.mpr ⟨r, List.mem_filterMap.mpr ⟨c, member, remains⟩, left⟩

/-- Whatever was appended, synced and truncated, a power loss that spares the files of
the synced records leaves these records and brings none back. -/
theorem synced_survive (path : String) (maxSegmentBytes : Nat) (updates : List Update)
    (small : Fits (updates.filterMap Update.payload?)) (disciplined : Disciplined false updates) :
    ∃ w, written path maxSegmentBytes updates = .ok w ∧ ∀ fate, w.Spares fate →
      w.Recovered (Log.open maxSegmentBytes (w.powerLoss fate)).1 := by
  obtain ⟨log, opened, laid, healthy, first⟩ := Log.open_empty path maxSegmentBytes
  have start : (⟨log, [], [], 0⟩ : Written).Stands false [] (.settled 1 [] fits_nil) :=
    ⟨laid, healthy, first, rfl, le_rfl, by simp [Chunk.settled],
      by simpa using Chunk.settled_synced 1 [] fits_nil⟩
  obtain ⟨w, _, lead, active, ran, stands⟩ := start.run updates small disciplined
  refine ⟨w, ?_, fun fate spares => stands.recovered spares maxSegmentBytes⟩
  rw [written, opened]
  exact ran

end Records

/-- The second record is truncated and a third one appended without a sync. With all
names as they are, the power loss leaves the first record only. -/
theorem synced_survive_rotation : ∃ w, written "wal" 1
    [.append [1], .append [2], .sync, .truncateSuffix 1, .append [3]] = .ok w ∧
      w.synced = 1 ∧ w.Recovered (Log.open 1 (w.powerLoss fun _ => .current 0)).1 := by
  obtain ⟨w, ran, recovered⟩ := synced_survive "wal" 1
    [.append [1], .append [2], .sync, .truncateSuffix 1, .append [3]]
    (by simp [Fits, Update.payload?, maxRecordLen]) (by simp [Disciplined])
  have synced : (written "wal" 1
      [.append [1], .append [2], .sync, .truncateSuffix 1, .append [3]]).toOption.map synced = some 1 := by
    decide +kernel
  rw [ran] at synced
  exact ⟨w, ran, Option.some.inj synced, recovered _ ⟨nofun, nofun⟩⟩

/-- One record is appended and synced, but the name of its file is not: the log comes
back empty. -/
theorem synced_lost : ∃ w, written "wal" 64 [.append [1], .sync] = .ok w ∧ w.synced = 1 ∧
    ¬ w.Recovered (Log.open 64 (w.powerLoss fun _ => .gone)).1 := by
  obtain ⟨w, ran⟩ : ∃ w, written "wal" 64 [.append [1], .sync] = .ok w := ⟨_, rfl⟩
  have held : (written "wal" 64 [.append [1], .sync]).toOption.map
      (fun w => (w.synced, number 1 (w.held.take w.synced))) = some (1, [(1, [1])]) := by
    decide +kernel
  have empty : (written "wal" 64 [.append [1], .sync]).toOption.bind
      (fun w => (Log.open 64 (w.powerLoss fun _ => .gone)).1.toOption.bind
        fun log => (Log.readAll log).1.toOption) = some [] := by
    decide +kernel
  simp only [ran, Except.toOption, Option.map_some, Option.some.injEq, Prod.mk.injEq,
    Option.bind_some] at held empty
  obtain ⟨one, held⟩ := held
  refine ⟨w, ran, one, ?_⟩
  rintro ⟨log, records, reopened, read, kept, _⟩
  simp only [reopened, Option.bind_some, read, Option.some.injEq] at empty
  have found := (kept (1, [1]) (by rw [one])).mpr (by rw [held]; exact List.mem_singleton_self _)
  rw [empty] at found
  cases found

end Written
end WalKv
