import WalKv.AtomicFile
import WalKv.Raft.Bincode
import WalKv.Transition
import WalKv.Wal.Directory

/-! The hard-state file on its disk. `HardState::persist` replaces the file as a whole, so that
a crash at any point leaves a state that was stored before or is being stored. -/
namespace WalKv
open AtomicFile (Names Inode)
open LittleEndian

/-- `bincode` on hard states. -/
class HardCodec where
  serialize : HardState → Except Error Bytes
  deserialize : Bytes → Except Error HardState

/-- What was encoded decodes to itself. -/
class LawfulHardCodec [HardCodec] : Prop where
  roundtrip : ∀ {hard bytes}, HardCodec.serialize hard = .ok bytes →
    HardCodec.deserialize bytes = .ok hard

/-- The outcome of the next operation. -/
def nextOutcome : Fallible Stop (List Outcome) Unit := fun outcomes =>
  match outcomes with
  | [] => (.ok (), [])
  | .done :: rest => (.ok (), rest)
  | .failed _ msg :: rest => (.error (.err (.io msg)), rest)
  | .crashed :: rest => (.error .crashed, rest)

/-- The hard-state file and how the coming operations end. -/
structure HardDisk where
  names : Names UInt8
  outcomes : List Outcome
  deriving DecidableEq, Repr

namespace HardDisk

abbrev Method (α : Type) : Type := Fallible Stop HardDisk α

def attempt : Method Unit :=
  Fallible.part HardDisk.outcomes (fun outcomes disk => { disk with outcomes }) nextOutcome

def operate (f : Names UInt8 → Names UInt8) : Method Unit := do
  attempt
  Fallible.modify fun disk => { disk with names := f disk.names }

/-- `write_all`. Where it fails, some bytes may have been written. -/
def writeAll (bytes : Bytes) : Method Unit := fun disk =>
  let written := match disk.outcomes with
    | [] | .done :: _ => bytes.length
    | .failed written _ :: _ => written
    | .crashed :: _ => 0
  let (ended, disk) := attempt disk
  (ended, { disk with names := disk.names.write (bytes.take written) })

def rename : Method Unit := do
  attempt
  match (← Fallible.get).names.temp with
  | some _ => Fallible.modify fun disk => { disk with names := disk.names.rename }
  | none => Fallible.stop (.err (.io "No such file or directory"))

section Codec
variable [HardCodec]

/-- `HardState::persist`. -/
def persist (hard : HardState) : Method Unit := do
  -- the parent directory is created if it is missing
  attempt
  let bytes ← Fallible.lift ((HardCodec.serialize hard).mapError .err)
  operate Names.create
  writeAll bytes
  operate Names.sync
  rename
  -- the parent directory is opened, then synced
  attempt
  operate Names.syncDir

/-- What is read from a file with this content. -/
def read : Option Bytes → Except Error HardState
  | some bytes => HardCodec.deserialize bytes
  | none => .ok default

/-- `HardState::load`. -/
def load : Method HardState := do
  attempt
  Fallible.lift ((read ((← Fallible.get).names.file.map Inode.content)).mapError .err)

/-- The file, if there is one, is the encoding of the state. -/
def Encodes : Option HardState → Option Bytes → Prop
  | some hard, some bytes => HardCodec.serialize hard = .ok bytes
  | none, none => True
  | _, _ => False

theorem Encodes.read [LawfulHardCodec] {hard : Option HardState} {bytes : Option Bytes}
    (encodes : Encodes hard bytes) : read bytes = .ok (hard.getD default) := by
  cases hard with
  | none =>
    cases bytes with
    | none => rfl
    | some bytes => cases encodes
  | some hard =>
    cases bytes with
    | none => cases encodes
    | some bytes => exact LawfulHardCodec.roundtrip encodes

/-- The file holds `new`, and held `old` when the directory was last synced. -/
def Stands (disk : HardDisk) (new old : Option HardState) : Prop :=
  ∃ bytes bytes', Encodes new bytes ∧ Encodes old bytes' ∧ disk.names.Shows bytes bytes'

section Calls
variable {disk : HardDisk} {new old : Option HardState} {hard : HardState} {bytes : Bytes}
  {content content' : Option Bytes}

omit [HardCodec] in
theorem attempt_leads {stopped : HardDisk → Prop}
    (unchanged : ∀ t : HardDisk, t.names = disk.names → stopped t) :
    Fallible.Leads attempt disk stopped fun _ t => t.names = disk.names := by
  obtain ⟨names, outcomes⟩ := disk
  cases outcomes with
  | nil => exact rfl
  | cons outcome rest =>
    cases outcome with
    | done => exact rfl
    | failed written msg => exact unchanged ⟨names, rest⟩ rfl
    | crashed => exact unchanged ⟨names, rest⟩ rfl

omit [HardCodec] in
theorem operate_leads {stopped : HardDisk → Prop} (f : Names UInt8 → Names UInt8)
    (unchanged : ∀ t : HardDisk, t.names = disk.names → stopped t) :
    Fallible.Leads (operate f) disk stopped fun _ t => t.names = f disk.names := by
  refine (attempt_leads unchanged).bind fun _ t same => ?_
  exact congrArg f same

omit [HardCodec] in
theorem writeAll_leads {stopped : HardDisk → Prop}
    (partly : ∀ written, ∀ t : HardDisk, t.names = disk.names.write (bytes.take written) → stopped t) :
    Fallible.Leads (writeAll bytes) disk stopped fun _ t => t.names = disk.names.write bytes := by
  obtain ⟨names, outcomes⟩ := disk
  have whole : names.write (bytes.take bytes.length) = names.write bytes := by
    rw [List.take_length]
  cases outcomes with
  | nil => exact whole
  | cons outcome rest =>
    cases outcome with
    | done => exact whole
    | failed written msg => exact partly written ⟨_, rest⟩ rfl
    | crashed => exact partly 0 ⟨_, rest⟩ rfl

omit [HardCodec] in
theorem rename_leads {stopped : HardDisk → Prop} {i : Inode UInt8}
    (written : disk.names.temp = some i) (unchanged : ∀ t : HardDisk, t.names = disk.names → stopped t) :
    Fallible.Leads rename disk stopped fun _ t => t.names = disk.names.rename := by
  refine (attempt_leads unchanged).bind fun _ t same => ?_
  rw [Fallible.Leads]
  simp only [Fallible.bind_run, Fallible.get_run, same, written, Fallible.modify_run]

theorem persist_leads (stands : disk.Stands new old) :
    Fallible.Leads (persist hard) disk
      (fun t => t.Stands new old ∨ t.Stands (some hard) old)
      fun _ t => t.Stands (some hard) (some hard) := by
  obtain ⟨content, content', encodes, encodes', shows⟩ := stands
  have before (t : HardDisk) (same : t.names.Shows content content') :
      t.Stands new old ∨ t.Stands (some hard) old := .inl ⟨_, _, encodes, encodes', same⟩
  refine (attempt_leads fun t same => before t (same ▸ shows)).bind fun _ t₀ same₀ => ?_
  cases encoded : HardCodec.serialize hard with
  | error error => exact before t₀ (same₀ ▸ shows)
  | ok bytes =>
    have encodes₁ : Encodes (some hard) (some bytes) := encoded
    refine Fallible.Leads.ok_bind ?_
    have shows₀ : t₀.names.Shows content content' := same₀ ▸ shows
    refine (operate_leads Names.create fun t same => before t (same ▸ shows₀)).bind
      fun _ t₁ same₁ => ?_
    have shows₁ : t₁.names.Shows content content' := same₁ ▸ shows₀.create
    refine (writeAll_leads fun written t same => before t (same ▸ shows₁.write _)).bind
      fun _ t₂ same₂ => ?_
    have shows₂ : t₂.names.Shows content content' := same₂ ▸ shows₁.write bytes
    refine (operate_leads Names.sync fun t same => before t (same ▸ shows₂)).bind
      fun _ t₃ same₃ => ?_
    have shows₃ : t₃.names.Shows content content' := same₃ ▸ shows₂.sync
    have temp : t₃.names.temp = some (Inode.whole bytes) := by
      rw [same₃, same₂, same₁]
      exact t₀.names.temp_written bytes
    refine (rename_leads temp fun t same => before t (same ▸ shows₃)).bind fun _ t₄ same₄ => ?_
    have shows₄ : t₄.names.Shows (some bytes) content' := same₄ ▸ shows₃.rename temp
    have after (t : HardDisk) (same : t.names = t₄.names) :
        t.Stands new old ∨ t.Stands (some hard) old :=
      .inr ⟨_, _, encodes₁, encodes', same ▸ shows₄⟩
    refine (attempt_leads after).bind fun _ t₅ same₅ => ?_
    refine (operate_leads Names.syncDir fun t same => after t (same.trans same₅)).weaken
      (fun _ => id) fun _ t same => ?_
    have shows₅ : t.names.Shows (some bytes) (some bytes) := by
      rw [same, same₅]
      exact shows₄.syncDir
    exact ⟨_, _, encodes₁, encodes₁, shows₅⟩

theorem Stands.left [LawfulHardCodec] (stands : disk.Stands new old) (renamed : Bool) (cut : Nat) :
    read (disk.names.left renamed cut) = .ok ((if renamed then new else old).getD default) := by
  obtain ⟨content, content', encodes, encodes', shows⟩ := stands
  rw [shows.left]
  cases renamed with
  | false => exact encodes'.read
  | true => exact encodes.read

theorem Stands.load [LawfulHardCodec] (stands : disk.Stands new old) (healthy : disk.outcomes = []) :
    load disk = (.ok (new.getD default), disk) := by
  obtain ⟨content, content', encodes, encodes', shows⟩ := stands
  obtain ⟨names, outcomes⟩ := disk
  cases healthy
  have found : names.file.map Inode.content = content := by
    rw [show names.file = content.map Inode.whole from shows.file, Option.map_map]
    exact Option.map_id'
  simp only [HardDisk.load, attempt, nextOutcome, Fallible.bind_run, Fallible.part_run,
    Fallible.get_run, Fallible.lift_run, found, encodes.read, Except.mapError]

theorem Stands.powerLoss (stands : disk.Stands new old) (renamed : Bool) (cut : Nat)
    (temp : Option (Inode UInt8)) (outcomes : List Outcome) :
    Stands ⟨disk.names.powerLoss renamed cut temp, outcomes⟩ (if renamed then new else old)
      (if renamed then new else old) := by
  obtain ⟨content, content', encodes, encodes', shows⟩ := stands
  have lost := shows.powerLoss renamed cut temp
  cases renamed with
  | false => exact ⟨_, _, encodes', encodes', lost⟩
  | true => exact ⟨_, _, encodes, encodes, lost⟩

end Calls
end Codec
end HardDisk

/-- The life of a hard-state file: what is on disk, what the last call that returned has stored
or what was found after a power loss, and what later calls have tried to store. -/
structure HardLife where
  disk : HardDisk
  acked : HardState
  tried : List HardState

namespace HardLife

/-- A call of `persist` with the outcomes of its operations, or a power loss. -/
inductive Act where
  | persist (hard : HardState) (outcomes : List Outcome)
  | powerLoss (renamed : Bool) (cut : Nat) (temp : Option (Inode UInt8))

section Codec
variable [HardCodec]

def step (life : HardLife) : Act → Option HardLife
  | .persist hard outcomes =>
    match HardDisk.persist hard { life.disk with outcomes } with
    | (.ok (), disk) => some ⟨disk, hard, []⟩
    | (.error _, disk) => some ⟨disk, life.acked, hard :: life.tried⟩
  | .powerLoss renamed cut temp =>
    let disk : HardDisk := ⟨life.disk.names.powerLoss renamed cut temp, []⟩
    match HardDisk.load disk with
    | (.ok found, disk) => some ⟨disk, found, []⟩
    | (.error _, _) => none

/-- A node that has never stored anything. -/
def fresh : HardLife := ⟨⟨⟨none, none, none⟩, []⟩, default, []⟩

/-- The file holds one of the states that it may hold, and so it did when its directory was
synced. -/
def Safe (life : HardLife) : Prop := ∃ new old, life.disk.Stands new old ∧
  new.getD default ∈ life.acked :: life.tried ∧ old.getD default ∈ life.acked :: life.tried

theorem fresh_safe : fresh.Safe :=
  ⟨none, none, ⟨none, none, trivial, trivial, rfl, rfl⟩, List.mem_cons_self, List.mem_cons_self⟩

theorem Safe.step [LawfulHardCodec] {life life' : HardLife} {act : Act} (safe : life.Safe)
    (stepped : life.step act = some life') : life'.Safe := by
  obtain ⟨new, old, stands, now, earlier⟩ := safe
  cases act with
  | persist hard outcomes =>
    have stands : HardDisk.Stands { life.disk with outcomes } new old := stands
    have leads : Fallible.Leads (HardDisk.persist hard) _ _ _ := HardDisk.persist_leads stands
    have older {x : HardState} (member : x ∈ life.acked :: life.tried) :
        x ∈ life.acked :: hard :: life.tried := by
      rcases List.mem_cons.mp member with rfl | tried
      · exact List.mem_cons_self
      · exact List.mem_cons_of_mem _ (List.mem_cons_of_mem _ tried)
    have tries : hard ∈ life.acked :: hard :: life.tried := List.mem_cons_of_mem _ List.mem_cons_self
    cases ran : HardDisk.persist hard { life.disk with outcomes } with
    | mk ended disk =>
      cases ended with
      | ok _ =>
        simp only [HardLife.step, ran, Option.some.injEq] at stepped
        subst stepped
        exact ⟨_, _, leads.returns ran, List.mem_cons_self, List.mem_cons_self⟩
      | error stop =>
        simp only [HardLife.step, ran, Option.some.injEq] at stepped
        subst stepped
        rcases leads.stops ran with same | replaced
        · exact ⟨_, _, same, older now, older earlier⟩
        · exact ⟨_, _, replaced, tries, older earlier⟩
  | powerLoss renamed cut temp =>
    have lost := stands.powerLoss renamed cut temp []
    simp only [HardLife.step, lost.load rfl, Option.some.injEq] at stepped
    subst stepped
    exact ⟨_, _, lost, List.mem_cons_self, List.mem_cons_self⟩

end Codec
end HardLife

/-- However the calls of `persist` end and whenever the power is lost, what is then found is
never torn: it is what the last call that returned has stored or what a later call has tried to
store. So is what a process finds that is started again without a power loss. -/
theorem hard_state_survives [HardCodec] [LawfulHardCodec] {life : HardLife}
    (run : Transition.Reaches HardLife.step (fun _ _ => True) HardLife.fresh life) :
    (∀ renamed cut, ∃ hard ∈ life.acked :: life.tried,
      HardDisk.read (life.disk.names.left renamed cut) = .ok hard) ∧
    ∃ hard ∈ life.acked :: life.tried,
      (HardDisk.load { life.disk with outcomes := [] }).1 = .ok hard := by
  have safe : life.Safe := run.invariant HardLife.fresh_safe
    fun safe _ stepped => safe.step stepped
  obtain ⟨new, old, stands, now, earlier⟩ := safe
  constructor
  · intro renamed cut
    refine ⟨_, ?_, stands.left renamed cut⟩
    cases renamed with
    | false => exact earlier
    | true => exact now
  · have stands : HardDisk.Stands { life.disk with outcomes := [] } new old := stands
    exact ⟨_, now, congrArg Prod.fst (stands.load rfl)⟩

namespace Fixint

/-- The layout of hard states for the concrete runs: an option is a tag byte before the value. -/
def serializeHard (hard : HardState) : Except Error Bytes := do
  let term ← u64 hard.currentTerm
  match hard.votedFor with
  | none => pure (term ++ [0])
  | some id => do
    let id ← u64 id
    pure (term ++ 1 :: id)

def readHard (bytes : Bytes) : Option HardState := do
  let (term, rest) ← splitNumber 8 bytes
  match rest with
  | 0 :: _ => pure ⟨term, none⟩
  | 1 :: rest => do
    let (id, _) ← splitNumber 8 rest
    pure ⟨term, some id⟩
  | _ => none

def deserializeHard (bytes : Bytes) : Except Error HardState :=
  match readHard bytes with
  | some hard => .ok hard
  | none => .error (.encode "invalid hard state")

instance hardLayout : HardCodec := ⟨serializeHard, deserializeHard⟩

theorem deserializeHard_serialize {hard : HardState} {bytes : Bytes}
    (encoded : serializeHard hard = .ok bytes) : deserializeHard bytes = .ok hard := by
  obtain ⟨term, voted⟩ := hard
  obtain ⟨first, termOk, encoded⟩ := Except.of_bind_ok encoded
  cases voted with
  | none =>
    cases encoded
    simp [deserializeHard, readHard, u64_ok termOk]
  | some id =>
    obtain ⟨second, idOk, same⟩ := Except.of_bind_ok encoded
    cases same
    have idRead := u64_ok idOk []
    rw [List.append_nil] at idRead
    simp [deserializeHard, readHard, u64_ok termOk, idRead]

instance : LawfulHardCodec := ⟨deserializeHard_serialize⟩

end Fixint

/-- One vote is stored, the next fails when the directory is to be synced. A process that is
started again finds the second, and a power loss may still take it back. -/
theorem hard_state_survives_unsynced : ∃ life : HardLife,
    life.acked = ⟨1, some 2⟩ ∧ life.tried = [⟨2, some 3⟩] ∧
    (HardDisk.load { life.disk with outcomes := [] }).1 = .ok ⟨2, some 3⟩ ∧
    HardDisk.read (life.disk.names.left false 0) = .ok ⟨1, some 2⟩ ∧
    ∀ renamed cut, ∃ hard ∈ life.acked :: life.tried,
      HardDisk.read (life.disk.names.left renamed cut) = .ok hard := by
  have ran : (Transition.execute HardLife.step (fun _ _ => True) HardLife.fresh
      [.persist ⟨1, some 2⟩ [],
        .persist ⟨2, some 3⟩ (List.replicate 6 .done ++ [.failed 0 "sync failed"])]).any (fun life =>
      decide (life.acked = ⟨1, some 2⟩ ∧ life.tried = [⟨2, some 3⟩] ∧
        (HardDisk.load { life.disk with outcomes := [] }).1.toOption = some ⟨2, some 3⟩ ∧
        (HardDisk.read (life.disk.names.left false 0)).toOption = some ⟨1, some 2⟩)) = true := by
    decide +kernel
  obtain ⟨life, reached, shown⟩ := Transition.execute_shows ran
  obtain ⟨acked, tried, restarted, lost⟩ := of_decide_eq_true shown
  exact ⟨life, acked, tried, Except.of_toOption_some restarted, Except.of_toOption_some lost,
    (hard_state_survives reached).1⟩

namespace HardDisk

/-- Successive calls of `persist`, each with the outcomes of its operations; whether they
returned, and the disk after them. -/
def persistEach [HardCodec] : List (HardState × List Outcome) → HardDisk → List Bool × HardDisk
  | [], disk => ([], disk)
  | (hard, outcomes) :: calls, disk =>
    let (ended, disk) := persist hard { disk with outcomes }
    let (verdicts, disk) := persistEach calls disk
    (ended.isOk :: verdicts, disk)

end HardDisk

namespace HardFile

/-- The same calls on a file that is replaced at once or not at all. -/
def persistEach : List HardState → HardFile → List Bool × HardFile
  | [], file => ([], file)
  | hard :: hards, file =>
    let (ended, file) := persist hard file
    let (verdicts, file) := persistEach hards file
    (ended.isOk :: verdicts, file)

end HardFile

namespace HardDisk.Stands
variable [HardCodec] {disk : HardDisk} {new old : Option HardState}

theorem persist (stands : disk.Stands new old) (hard : HardState) (renamed : Bool) :
    ∃ new' old' outcome, (HardDisk.persist hard disk).2.Stands new' old' ∧ ∀ rest, ∃ ended,
      HardFile.persist hard ⟨if renamed then new else old, outcome :: rest⟩ =
        (ended, ⟨if renamed then new' else old', rest⟩) ∧
      ended.isOk = (HardDisk.persist hard disk).1.isOk := by
  have leads : Fallible.Leads (HardDisk.persist hard) disk _ _ := HardDisk.persist_leads stands
  cases ran : HardDisk.persist hard disk with
  | mk ended t =>
    cases ended with
    | ok _ =>
      refine ⟨some hard, some hard, .ok, leads.returns ran, fun rest => ⟨.ok (), ?_, rfl⟩⟩
      rw [ite_self]
      rfl
    | error stop =>
      rcases leads.stops ran with kept | replaced
      · exact ⟨new, old, .errOld, kept, fun rest => ⟨_, rfl, rfl⟩⟩
      · cases renamed with
        | false => exact ⟨some hard, old, .errOld, replaced, fun rest => ⟨_, rfl, rfl⟩⟩
        | true => exact ⟨some hard, old, .errNew, replaced, fun rest => ⟨_, rfl, rfl⟩⟩

theorem persistEach (stands : disk.Stands new old) (calls : List (HardState × List Outcome))
    (renamed : Bool) :
    ∃ new' old' outcomes, (HardDisk.persistEach calls disk).2.Stands new' old' ∧
      HardFile.persistEach (calls.map Prod.fst) ⟨if renamed then new else old, outcomes⟩ =
        ((HardDisk.persistEach calls disk).1, ⟨if renamed then new' else old', []⟩) := by
  induction calls generalizing disk new old with
  | nil => exact ⟨new, old, [], stands, rfl⟩
  | cons call calls ih =>
    obtain ⟨hard, outcomes⟩ := call
    have stands : HardDisk.Stands { disk with outcomes } new old := stands
    obtain ⟨new₁, old₁, outcome, stands₁, counted⟩ := stands.persist hard renamed
    obtain ⟨new', old', rest, stands', same⟩ := ih stands₁
    obtain ⟨ended, first, verdict⟩ := counted rest
    refine ⟨new', old', outcome :: rest, stands', ?_⟩
    simp only [List.map_cons, HardFile.persistEach, HardDisk.persistEach, first, same, verdict]

end HardDisk.Stands

/-- The file of the model, which each call replaces at once or leaves alone, is what there is on
disk: for all calls of `persist`, however their operations end, and whatever a power loss then
leaves, there is a way to count the calls that failed such that the same calls return and the
same state is found. -/
theorem persist_refines_hard_file [HardCodec] [LawfulHardCodec] {disk : HardDisk}
    {content : Option HardState} (stands : disk.Stands content content) (calls : List (HardState × List Outcome))
    (renamed : Bool) (cut : Nat) :
    ∃ outcomes,
      (HardFile.persistEach (calls.map Prod.fst) ⟨content, outcomes⟩).1 =
        (HardDisk.persistEach calls disk).1 ∧
      HardDisk.read ((HardDisk.persistEach calls disk).2.names.left renamed cut) =
        .ok (HardFile.persistEach (calls.map Prod.fst) ⟨content, outcomes⟩).2.load := by
  obtain ⟨new, old, outcomes, stands', same⟩ := stands.persistEach calls renamed
  rw [ite_self] at same
  refine ⟨outcomes, ?_, ?_⟩
  · rw [same]
  · rw [same, stands'.left]
    rfl

/-- Of three calls the first returns, the second fails before it has written everything and the
third when the directory is to be synced. -/
def shakyCalls : List (HardState × List Outcome) :=
  [(⟨1, none⟩, []), (⟨1, some 2⟩, [.done, .done, .failed 3 "disk full"]),
    (⟨2, some 3⟩, List.replicate 6 .done ++ [.failed 0 "sync failed"])]

theorem persist_refines_hard_file_shaky : ∃ outcomes,
    (HardFile.persistEach (shakyCalls.map Prod.fst) ⟨none, outcomes⟩).1 = [true, false, false] ∧
    HardDisk.read ((HardDisk.persistEach shakyCalls HardLife.fresh.disk).2.names.left true 0) =
      .ok (HardFile.persistEach (shakyCalls.map Prod.fst) ⟨none, outcomes⟩).2.load := by
  have stands : HardLife.fresh.disk.Stands none none := ⟨none, none, trivial, trivial, rfl, rfl⟩
  have verdicts : (HardDisk.persistEach shakyCalls HardLife.fresh.disk).1 = [true, false, false] := by
    decide +kernel
  obtain ⟨outcomes, same, found⟩ := persist_refines_hard_file stands shakyCalls true 0
  exact ⟨outcomes, same.trans verdicts, found⟩

end WalKv
