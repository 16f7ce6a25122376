import WalKv.Wal.Faults
import WalKv.Wal.Truncation
import WalKv.Wal.Flat

/-! The segmented log as one list of records. Whatever segments its records lie in,
a log answers as the list does; only how much of its front goes when it is compacted
depends on the segments. -/
namespace WalKv

section Records
variable [Checksum] {log : Log} {flatLog : FlatLog} {lead : List Chunk} {active : Chunk}
  {payload : Bytes} {unsynced : Bool}

omit [Checksum] in
theorem FlatLog.readAll_number (flatLog : FlatLog) :
    flatLog.readAll = number flatLog.firstIndex flatLog.records := by
  have shifted : flatLog.records.zipIdx flatLog.firstIndex = _ := List.zipIdx_eq_map_add
  rw [FlatLog.readAll, number, shifted, List.map_map]
  rfl

namespace Log

/-- The log stands for a list of records. Unless it is marked unsynced, all of them
are on disk. -/
def Shows (log : Log) (flatLog : FlatLog) (unsynced : Bool) : Prop :=
  ∃ lead active, log.Laid lead active ∧ log.dir.outcomes = [] ∧
    log.firstIndex = flatLog.firstIndex ∧ flat (lead ++ [active]) = flatLog.records ∧
    (unsynced = false → ∀ c ∈ lead ++ [active], c.Synced)

theorem shows_empty (path : String) (maxSegmentBytes : Nat) : ∃ log,
    (Log.open maxSegmentBytes (Dir.empty path)).1 = .ok log ∧ log.Shows FlatLog.empty false := by
  obtain ⟨log, opened, laid, healthy, first⟩ := open_empty path maxSegmentBytes
  refine ⟨log, opened, [], _, laid, healthy, first, rfl, fun _ => ?_⟩
  simpa using Chunk.settled_synced 1 [] fits_nil

namespace Shows

theorem positive (shown : log.Shows flatLog unsynced) : 1 ≤ flatLog.firstIndex := by
  obtain ⟨lead, active, laid, _, first, _⟩ := shown
  exact first ▸ laid.positive

theorem firstIndex (shown : log.Shows flatLog unsynced) : log.firstIndex = flatLog.firstIndex := by
  obtain ⟨_, _, _, _, first, _⟩ := shown
  exact first

theorem lastIndex (shown : log.Shows flatLog unsynced) : log.lastIndex = flatLog.lastIndex := by
  have positive := shown.positive
  obtain ⟨lead, active, laid, _, first, records, _⟩ := shown
  have last := laid.last
  rw [records, first] at last
  rw [FlatLog.lastIndex]
  omega

theorem len (shown : log.Shows flatLog unsynced) : log.len = flatLog.records.length := by
  have positive := shown.positive
  have last := shown.lastIndex
  obtain ⟨lead, active, laid, _, first, records, _⟩ := shown
  rw [Log.len, last, first, FlatLog.lastIndex]
  split_ifs <;> omega

theorem append (shown : log.Shows flatLog unsynced) (small : payload.length ≤ maxRecordLen) :
    ∃ log', Log.append payload log = (.ok (flatLog.lastIndex + 1), log') ∧
      log'.Shows { flatLog with records := flatLog.records ++ [payload] } true := by
  have last := shown.lastIndex
  obtain ⟨lead, active, laid, healthy, first, records, _⟩ := shown
  obtain ⟨log', lead', active', appended, laid', healthy', first', records', _⟩ :=
    laid.append healthy small
  rw [last] at appended
  exact ⟨log', appended, lead', active', laid', healthy', first'.trans first,
    records'.trans (congrArg (· ++ [payload]) records), nofun⟩

theorem sync (shown : log.Shows flatLog unsynced) : ∃ log', Log.sync log = (.ok (), log') ∧
    log'.Shows flatLog false := by
  obtain ⟨lead, active, laid, healthy, first, records, _⟩ := shown
  refine ⟨_, laid.sync_run healthy, _, _, laid.sync, healthy, first, ?_, fun _ => ?_⟩
  · rw [← records, ← flat_flushed (lead ++ [active]), List.map_append]
    rfl
  · intro c member
    rw [← List.map_singleton, ← List.map_append] at member
    obtain ⟨x, _, rfl⟩ := List.mem_map.mp member
    exact Chunk.settled_synced _ _ _

theorem truncatePrefix (shown : log.Shows flatLog unsynced) (upTo : Nat) :
    ∃ log' n, Log.truncatePrefix upTo log = (.ok (), log') ∧ n ≤ flatLog.records.length ∧
      (n = 0 ∨ flatLog.firstIndex + n ≤ upTo) ∧
      log'.Shows ⟨flatLog.firstIndex + n, flatLog.records.drop n⟩ unsynced := by
  obtain ⟨lead, active, laid, healthy, first, records, synced⟩ := shown
  obtain ⟨gone, left, rfl, past, ended⟩ := laid.truncatePrefix_run upTo
  rcases ended with ⟨outcomes, ran, clear⟩ | ⟨stop, log', ran, unhealthy, cut⟩
  · rw [List.append_assoc, flat_append] at records
    rw [List.append_assoc] at synced
    refine ⟨_, (flat gone).length, ran, ?_, ?_, left, active, laid.compacted outcomes,
      clear healthy, ?_, ?_, fun clean c member => synced clean c (List.mem_append_right _ member)⟩
    · rw [← records, List.length_append]
      exact Nat.le_add_right _ _
    · rw [first] at past
      exact past.imp_left fun none => by rw [none]; rfl
    · simp only [first]
    · rw [← records]
      exact List.drop_left.symm
  · exact absurd healthy unhealthy

theorem truncateSuffix (shown : log.Shows flatLog false) (keepLast : Nat) :
    ∃ log', Log.truncateSuffix keepLast log = ((FlatLog.truncateSuffix keepLast flatLog).1, log') ∧
      log'.Shows (FlatLog.truncateSuffix keepLast flatLog).2 false ∧
      ((FlatLog.truncateSuffix keepLast flatLog).1 ≠ .ok () → log' = log) := by
  have last := shown.lastIndex
  obtain ⟨lead, active, laid, healthy, first, records, synced⟩ := id shown
  by_cases beyond : flatLog.lastIndex ≤ keepLast
  · have kept : FlatLog.truncateSuffix keepLast flatLog = (.ok (), flatLog) := if_pos beyond
    rw [kept]
    refine ⟨log, ?_, shown, fun _ => rfl⟩
    simp only [Log.truncateSuffix, Fallible.bind_run, Fallible.get_run, last, if_pos beyond,
      Fallible.pure_run]
  · by_cases below : keepLast + 1 < flatLog.firstIndex
    · have refused : FlatLog.truncateSuffix keepLast flatLog = (.error (.err (.wal
          s!"cannot truncate to {keepLast}: below compacted prefix at {flatLog.firstIndex}")),
          flatLog) := (if_neg beyond).trans (if_pos below)
      rw [refused]
      refine ⟨log, ?_, shown, fun _ => rfl⟩
      simp only [Log.truncateSuffix, Fallible.bind_run, Fallible.get_run, last, if_neg beyond, first,
        if_pos below, Fallible.stop_run]
    · have cut : FlatLog.truncateSuffix keepLast flatLog = (.ok (), { flatLog with
          records := flatLog.records.take (keepLast + 1 - flatLog.firstIndex) }) :=
        (if_neg beyond).trans (if_neg below)
      rw [cut]
      have accepted : log.firstIndex ≤ keepLast + 1 := by omega
      have inside : keepLast < log.lastIndex := by omega
      obtain ⟨log', front, c, ran, laid', clear, first', kept, durable⟩ :=
        laid.truncateSuffix_synced (synced rfl) healthy accepted inside
      refine ⟨log', ran, ⟨front, c, laid', clear, first'.trans first, ?_, fun _ => durable⟩,
        fun failed => absurd rfl failed⟩
      rw [kept, records, first]

theorem readAll (shown : log.Shows flatLog false) :
    Log.readAll log = (.ok flatLog.readAll, log) := by
  obtain ⟨lead, active, laid, healthy, first, records, synced⟩ := shown
  rw [laid.readAll_run (synced rfl) healthy, FlatLog.readAll_number, ← first, ← records]
  exact congrArg (Except.ok ·, log) laid.contiguous.number

theorem reopen (shown : log.Shows flatLog false) (maxSegmentBytes : Nat) :
    ∃ log', (Log.open maxSegmentBytes log.dir).1 = .ok log' ∧ log'.Shows flatLog false := by
  obtain ⟨lead, active, laid, healthy, first, records, synced⟩ := shown
  obtain ⟨c, head, base⟩ := laid.starts
  have files : log.dir.files = ((lead ++ [active]).map Chunk.intact).map Remnant.entry := by
    rw [laid.files, List.map_map]
    exact List.map_congr_left fun x member => (Chunk.intact_entry (synced rfl x member)).symm
  have ordered : (((lead ++ [active]).map Chunk.intact).map Remnant.base).Pairwise (· < ·) := by
    rw [List.map_map]
    exact laid.contiguous.ordered laid.full
  have starts : ((lead ++ [active]).map Chunk.intact).head? = some c.intact := by
    rw [List.head?_map, head]
    rfl
  have ends : ((lead ++ [active]).map Chunk.intact).getLast? = some active.intact := by
    simp
  refine ⟨_, open_run maxSegmentBytes healthy laid.named files ordered starts ends,
    lead.map Chunk.flushed, active.flushed, ?_, healthy, base.trans first, ?_, fun _ => ?_⟩
  · have moved := laid.sync
    have last := laid.last
    have active_base := laid.contiguous.active_base
    have start : c.intact.base = log.firstIndex := base
    have positive := laid.positive
    have ending : active.intact.base + active.intact.records.length - 1 = log.lastIndex := by
      have place : active.intact.base = active.base := rfl
      have size : active.intact.records.length = active.records.length := rfl
      simp only [flat_append, flat_cons, flat_nil, List.append_nil, List.length_append] at last
      omega
    rw [reopened, start, ending]
    refine ⟨?_, ?_, moved.contiguous, moved.positive, moved.last, moved.full, moved.named⟩
    · rw [← moved.segments]
      exact List.map_map
    · rw [← moved.files]
      exact List.map_map
  · rw [← records, ← flat_flushed (lead ++ [active]), List.map_append]
    rfl
  · intro x member
    rw [← List.map_singleton, ← List.map_append] at member
    obtain ⟨y, _, rfl⟩ := List.mem_map.mp member
    exact Chunk.settled_synced _ _ _

end Shows

/-- What is asked of a log. Closing drops it with what is left in its buffers. -/
inductive Request where
  | append (payload : Bytes)
  | sync
  | truncatePrefix (upTo : Nat)
  | truncateSuffix (keepLast : Nat)
  | readAll
  | reopen (maxSegmentBytes : Nat)
  deriving DecidableEq, Repr

inductive Answer where
  | index (i : Nat)
  | done
  | records (records : List (Nat × Bytes))
  | failed (stop : Stop)
  deriving DecidableEq, Repr

def Answer.of {α : Type} (answer : α → Answer) : Except Stop α → Answer
  | .ok a => answer a
  | .error stop => .failed stop

def serve (log : Log) : Request → Answer × Log
  | .append payload => (Log.append payload log).map (.of .index) id
  | .sync => (Log.sync log).map (.of fun _ => .done) id
  | .truncatePrefix upTo => (Log.truncatePrefix upTo log).map (.of fun _ => .done) id
  | .truncateSuffix keepLast => (Log.truncateSuffix keepLast log).map (.of fun _ => .done) id
  | .readAll => (Log.readAll log).map (.of .records) id
  | .reopen maxSegmentBytes =>
    match Log.open maxSegmentBytes log.dir with
    | (.ok log, _) => (.done, log)
    | (.error stop, dir) => (.failed stop, { log with dir })

end Log

/-- The answers a list of records may give, and what then becomes of it. -/
def FlatLog.Allows (before : FlatLog) (request : Log.Request) (answer : Log.Answer)
    (after : FlatLog) : Prop :=
  match request with
  | .append payload => answer = .index (before.lastIndex + 1) ∧
    after = { before with records := before.records ++ [payload] }
  | .sync | .reopen _ => answer = .done ∧ after = before
  | .truncatePrefix upTo => answer = .done ∧ ∃ n ≤ before.records.length,
    (n = 0 ∨ before.firstIndex + n ≤ upTo) ∧ after = ⟨before.firstIndex + n, before.records.drop n⟩
  | .truncateSuffix keepLast => answer = .of (fun _ => .done) (FlatLog.truncateSuffix keepLast before).1 ∧
    after = (FlatLog.truncateSuffix keepLast before).2
  | .readAll => answer = .records before.readAll ∧ after = before

namespace Log

/-- A request comes after a sync where it reads from the files. -/
def Disciplined : Bool → List Request → Prop
  | _, [] => True
  | _, .append _ :: rest => Disciplined true rest
  | _, .sync :: rest => Disciplined false rest
  | unsynced, .truncatePrefix _ :: rest => Disciplined unsynced rest
  | unsynced, _ :: rest => unsynced = false ∧ Disciplined false rest

def Request.payload? : Request → Option Bytes
  | .append payload => some payload
  | _ => none

/-- The log shows the indices and the number of records of the list. -/
def Agrees (log : Log) (flatLog : FlatLog) : Prop :=
  log.firstIndex = flatLog.firstIndex ∧ log.lastIndex = flatLog.lastIndex ∧
    log.len = flatLog.records.length

/-- Request after request the log answers as the list may, agrees with it, and is
left unchanged where it fails. -/
def Follows : List Request → Log → FlatLog → Prop
  | [], log, flatLog => log.Agrees flatLog
  | request :: rest, log, flatLog => log.Agrees flatLog ∧ ∃ flatLog',
    flatLog.Allows request (log.serve request).1 flatLog' ∧
    (∀ stop, (log.serve request).1 = .failed stop → (log.serve request).2 = log) ∧
    Follows rest (log.serve request).2 flatLog'

theorem Shows.agrees (shown : log.Shows flatLog unsynced) : log.Agrees flatLog := by
  refine ⟨?_, shown.lastIndex, shown.len⟩
  obtain ⟨lead, active, laid, _, first, _⟩ := shown
  exact first

theorem Shows.serve {request : Request} {rest : List Request} (shown : log.Shows flatLog unsynced)
    (small : ∀ payload ∈ request.payload?, payload.length ≤ maxRecordLen)
    (disciplined : Disciplined unsynced (request :: rest)) : ∃ flatLog' unsynced',
      flatLog.Allows request (log.serve request).1 flatLog' ∧
      (∀ stop, (log.serve request).1 = .failed stop → (log.serve request).2 = log) ∧
      (log.serve request).2.Shows flatLog' unsynced' ∧ Disciplined unsynced' rest := by
  cases request with
  | append payload =>
    obtain ⟨log', ran, shown'⟩ := shown.append (small payload rfl)
    simp only [Log.serve, ran]
    exact ⟨_, true, ⟨rfl, rfl⟩, nofun, shown', disciplined⟩
  | sync =>
    obtain ⟨log', ran, shown'⟩ := shown.sync
    simp only [Log.serve, ran]
    exact ⟨_, false, ⟨rfl, rfl⟩, nofun, shown', disciplined⟩
  | truncatePrefix upTo =>
    obtain ⟨log', n, ran, within, below, shown'⟩ := shown.truncatePrefix upTo
    simp only [Log.serve, ran]
    exact ⟨_, unsynced, ⟨rfl, n, within, below, rfl⟩, nofun, shown', disciplined⟩
  | truncateSuffix keepLast =>
    obtain ⟨rfl, later⟩ := disciplined
    obtain ⟨log', ran, shown', unchanged⟩ := shown.truncateSuffix keepLast
    simp only [Log.serve, ran]
    refine ⟨_, false, ⟨rfl, rfl⟩, ?_, shown', later⟩
    intro stop failed
    refine unchanged fun success => ?_
    rw [success] at failed
    cases failed
  | readAll =>
    obtain ⟨rfl, later⟩ := disciplined
    simp only [Log.serve, shown.readAll]
    exact ⟨_, false, ⟨rfl, rfl⟩, nofun, shown, later⟩
  | reopen maxSegmentBytes =>
    obtain ⟨rfl, later⟩ := disciplined
    obtain ⟨log', reopened, shown'⟩ := shown.reopen maxSegmentBytes
    rcases ended : Log.open maxSegmentBytes log.dir with ⟨result, dir⟩
    rw [ended] at reopened
    cases reopened
    simp only [Log.serve, ended]
    exact ⟨_, false, ⟨rfl, rfl⟩, nofun, shown', later⟩

theorem Shows.follows (requests : List Request) (shown : log.Shows flatLog unsynced)
    (small : Fits (requests.filterMap Request.payload?))
    (disciplined : Disciplined unsynced requests) : Follows requests log flatLog := by
  induction requests generalizing log flatLog unsynced with
  | nil => exact shown.agrees
  | cons request rest ih =>
    have here : ∀ payload ∈ request.payload?, payload.length ≤ maxRecordLen := fun payload found =>
      small payload (List.mem_filterMap.mpr ⟨request, List.mem_cons_self, found⟩)
    have later : Fits (rest.filterMap Request.payload?) := by
      intro payload inside
      obtain ⟨x, member, found⟩ := List.mem_filterMap.mp inside
      exact small payload (List.mem_filterMap.mpr ⟨x, List.mem_cons_of_mem _ member, found⟩)
    obtain ⟨flatLog', unsynced', allowed, unchanged, shown', disciplined'⟩ :=
      shown.serve here disciplined
    exact ⟨shown.agrees, flatLog', allowed, unchanged, ih shown' later disciplined'⟩

/-- From an empty directory on, the segmented log follows a list of records. -/
theorem log_refines_list (path : String) (maxSegmentBytes : Nat) (requests : List Request)
    (small : Fits (requests.filterMap Request.payload?)) (disciplined : Disciplined false requests) :
    ∃ log, (Log.open maxSegmentBytes (Dir.empty path)).1 = .ok log ∧
      Follows requests log FlatLog.empty := by
  obtain ⟨log, opened, shown⟩ := shows_empty path maxSegmentBytes
  exact ⟨log, opened, shown.follows requests small disciplined⟩

end Log
end Records

/-- One record to a segment, cut at both ends and reopened. -/
theorem Log.log_refines_list_cut : ∃ log, (Log.open 0 (Dir.empty "wal")).1 = .ok log ∧
    Log.Follows [.append [1], .append [2], .append [3], .append [4], .sync, .truncatePrefix 2,
      .truncateSuffix 3, .readAll, .reopen 9, .append [5]] log FlatLog.empty :=
  Log.log_refines_list "wal" 0 _ (by simp [Fits, Log.Request.payload?, maxRecordLen])
    (by simp [Log.Disciplined])

end WalKv
