import WalKv.Wal.Record
import WalKv.Keyed
import Mathlib.Data.List.Nodup

/-! The directory of a write-ahead log. Files are known by the index their names
encode. A file remembers how much of it an fsync has made durable. Every
operation uses up one outcome: it succeeds, fails, or is where the process
crashes. -/
namespace WalKv

structure File where
  content : Bytes
  synced : Nat
  deriving DecidableEq, Repr

/-- How an operation ends. A write that fails may have written some bytes. -/
inductive Outcome where
  | done
  | failed (written : Nat) (msg : String)
  | crashed
  deriving DecidableEq, Repr

/-- The path, the segment files in the order they were created, names of segment
files that encode no index, and how the coming operations end: all well once
these are used up. -/
structure Dir where
  path : String
  files : List (Nat × File)
  malformed : List String
  outcomes : List Outcome
  deriving DecidableEq, Repr

/-- `segment_path`, with the index padded to twenty digits. -/
def segmentPath (dir : String) (base : Nat) : String :=
  let digits := toString base
  s!"{dir}/wal-" ++ String.ofList (List.replicate (20 - digits.length) '0') ++ digits ++ ".log"

namespace Dir

def empty (path : String) : Dir := ⟨path, [], [], []⟩

def find (base : Nat) (dir : Dir) : Option File := dir.files.lookup base

def setFile (base : Nat) (file : File) (dir : Dir) : Dir :=
  { dir with files := Keyed.put base file dir.files }

/-- The outcome of the next operation. -/
def attempt : Fallible Stop Dir Unit := fun dir =>
  match dir.outcomes with
  | [] => (.ok (), dir)
  | .done :: rest => (.ok (), { dir with outcomes := rest })
  | .failed _ msg :: rest => (.error (.err (.io msg)), { dir with outcomes := rest })
  | .crashed :: rest => (.error .crashed, { dir with outcomes := rest })

/-- The file an operation works on, which has to exist. -/
def existing (base : Nat) : Fallible Stop Dir File := do
  attempt
  let dir ← Fallible.get
  match dir.find base with
  | some file => pure file
  | none => Fallible.stop (.err (.io "No such file or directory"))

/-- Open for reading and read. -/
def read (base : Nat) : Fallible Stop Dir Reader := do
  let file ← existing base
  pure ⟨file.content, []⟩

/-- Open for writing. -/
def openWrite (base : Nat) : Fallible Stop Dir Unit := do
  let _ ← existing base

def setLen (base length : Nat) : Fallible Stop Dir Unit := do
  let file ← existing base
  Fallible.modify (setFile base
    ⟨file.content.take length ++ List.replicate (length - file.content.length) 0,
      min file.synced length⟩)

def syncAll (base : Nat) : Fallible Stop Dir Unit := do
  let file ← existing base
  Fallible.modify (setFile base { file with synced := file.content.length })

def createNew (base : Nat) : Fallible Stop Dir Unit := do
  attempt
  let dir ← Fallible.get
  if (dir.find base).isSome then Fallible.stop (.err (.io "File exists"))
  else Fallible.modify fun dir => { dir with files := dir.files ++ [(base, ⟨[], 0⟩)] }

def removeFile (base : Nat) : Fallible Stop Dir Unit := do
  let _ ← existing base
  Fallible.modify fun dir => { dir with files := dir.files.filter (·.1 ≠ base) }

/-- How many of so many bytes the next write takes. -/
def accepted (length : Nat) (dir : Dir) : Nat :=
  match dir.outcomes with
  | [] | .done :: _ => length
  | .failed written _ :: _ => min written length
  | .crashed :: _ => 0

/-- Write at the end of an open file. Where the file has been unlinked the bytes
are lost with it. -/
def write (base : Nat) (bytes : Bytes) (dir : Dir) : Nat × Except Stop Unit × Dir :=
  let written := dir.accepted bytes.length
  let (ended, after) := attempt dir
  (written, ended, match after.find base with
    | some file => after.setFile base { file with content := file.content ++ bytes.take written }
    | none => after)

/-- The next operation goes well and leaves these outcomes. -/
def Ready (dir : Dir) (outcomes : List Outcome) : Prop :=
  attempt dir = (.ok (), { dir with outcomes })

/-- The next operation does not go well. -/
def Fails (dir : Dir) : Prop := ∃ outcome ∈ dir.outcomes.head?, outcome ≠ .done

instance (dir : Dir) : Decidable dir.Fails :=
  inferInstanceAs (Decidable (∃ outcome ∈ dir.outcomes.head?, outcome ≠ .done))

variable {dir : Dir} {outcomes : List Outcome} {base : Nat} {file : File}

theorem with_nil (healthy : dir.outcomes = []) : { dir with outcomes := [] } = dir := by
  cases dir
  cases healthy
  rfl

theorem ready_nil (healthy : dir.outcomes = []) : Ready dir [] := by
  rw [Ready, attempt, healthy, with_nil healthy]

theorem attempt_only (dir : Dir) :
    (attempt dir).2 = { dir with outcomes := (attempt dir).2.outcomes } := by
  unfold attempt
  split <;> rfl

/-- An operation goes well or stops before it has any effect. -/
theorem attempt_cases (dir : Dir) :
    (∃ outcomes, Ready dir outcomes ∧ (dir.outcomes = [] → outcomes = [])) ∨
      ∃ stop outcomes, attempt dir = (.error stop, { dir with outcomes }) ∧ dir.outcomes ≠ [] := by
  rcases next : dir.outcomes with _ | ⟨_ | ⟨written, msg⟩ | _, rest⟩
  · exact Or.inl ⟨[], ready_nil next, fun _ => rfl⟩
  · exact Or.inl ⟨rest, by simp [Ready, attempt, next], nofun⟩
  · exact Or.inr ⟨.err (.io msg), rest, by simp only [attempt, next], nofun⟩
  · exact Or.inr ⟨.crashed, rest, by simp only [attempt, next], nofun⟩

theorem fails_iff : dir.Fails ↔ (attempt dir).1 ≠ .ok () := by
  rcases next : dir.outcomes with _ | ⟨_ | ⟨written, msg⟩ | _, rest⟩ <;>
    simp [Fails, attempt, next]

theorem Ready.not_fails (ready : Ready dir outcomes) : ¬ dir.Fails := by
  rw [fails_iff, ready]
  exact not_not_intro rfl

theorem fails_of_stopped {stop : Stop} {t : Dir} (stopped : attempt dir = (.error stop, t)) :
    dir.Fails := by
  rw [fails_iff, stopped]
  simp

theorem Fails.unhealthy (fails : dir.Fails) : dir.outcomes ≠ [] := by
  intro none
  obtain ⟨outcome, member, _⟩ := fails
  rw [none] at member
  cases member

theorem existing_stopped {stop : Stop} (stopped : attempt dir = (.error stop, { dir with outcomes })) :
    existing base dir = (.error stop, { dir with outcomes }) := by
  rw [existing, Fallible.bind_error stopped]

theorem existing_run (ready : Ready dir outcomes) (found : dir.find base = some file) :
    existing base dir = (.ok file, { dir with outcomes }) := by
  have found : Dir.find base { dir with outcomes } = some file := found
  simp only [existing, Fallible.bind_run, show attempt dir = _ from ready, Fallible.get_run, found,
    Fallible.pure_run]

theorem read_run (ready : Ready dir outcomes) (found : dir.find base = some file) :
    read base dir = (.ok ⟨file.content, []⟩, { dir with outcomes }) := by
  simp only [read, Fallible.bind_run, existing_run ready found, Fallible.pure_run]

theorem syncAll_run (ready : Ready dir outcomes) (found : dir.find base = some file) :
    syncAll base dir = (.ok (), { dir.setFile base
      { file with synced := file.content.length } with outcomes }) := by
  simp only [syncAll, Fallible.bind_run, existing_run ready found, Fallible.modify_run, setFile]

theorem removeFile_run (ready : Ready dir outcomes) (found : dir.find base = some file) :
    removeFile base dir =
      (.ok (), { dir with outcomes, files := dir.files.filter (·.1 ≠ base) }) := by
  simp only [removeFile, Fallible.bind_run, existing_run ready found, Fallible.modify_run]

theorem existing_ok (healthy : dir.outcomes = []) (found : dir.find base = some file) :
    existing base dir = (.ok file, dir) := by
  rw [existing_run (ready_nil healthy) found, with_nil healthy]

theorem setLen_ok (healthy : dir.outcomes = []) (found : dir.find base = some file)
    {length : Nat} (shorter : length ≤ file.content.length) :
    setLen base length dir = (.ok (),
      dir.setFile base ⟨file.content.take length, min file.synced length⟩) := by
  simp only [setLen, Fallible.bind_run, existing_ok healthy found, Fallible.modify_run,
    Nat.sub_eq_zero_of_le shorter, List.replicate_zero, List.append_nil]

theorem find_setFile {other : File} (found : dir.find base = some other) :
    (dir.setFile base file).find base = some file := Keyed.lookup_put found

theorem syncAll_setFile {other : File} (healthy : dir.outcomes = [])
    (found : dir.find base = some other) (file : File) :
    syncAll base (dir.setFile base file) =
      (.ok (), dir.setFile base { file with synced := file.content.length }) := by
  have healthy' : (dir.setFile base file).outcomes = [] := healthy
  simp only [syncAll, Fallible.bind_run, existing_ok healthy' (find_setFile found),
    Fallible.modify_run]
  simp only [setFile, Keyed.put_put]

section Middle
variable {before after : List (Nat × File)}

theorem absent_before (files : dir.files = before ++ (base, file) :: after)
    (distinct : (dir.files.map Prod.fst).Nodup) : base ∉ before.map Prod.fst := by
  rw [files, List.map_append, List.map_cons, List.nodup_middle] at distinct
  exact fun inside => distinct.notMem (List.mem_append_left _ inside)

theorem find_middle (files : dir.files = before ++ (base, file) :: after)
    (distinct : (dir.files.map Prod.fst).Nodup) : dir.find base = some file := by
  rw [find, files]
  exact Keyed.lookup_middle (absent_before files distinct)

theorem setFile_middle (files : dir.files = before ++ (base, file) :: after)
    (distinct : (dir.files.map Prod.fst).Nodup) (other : File) :
    dir.setFile base other = { dir with files := before ++ [(base, other)] ++ after } := by
  have absent := absent_before files distinct
  rw [setFile, files, Keyed.put_middle absent, List.append_assoc, List.singleton_append]

end Middle

theorem createNew_run (ready : Ready dir outcomes) (absent : dir.find base = none) :
    createNew base dir =
      (.ok (), { dir with outcomes, files := dir.files ++ [(base, ⟨[], 0⟩)] }) := by
  have absent : Dir.find base { dir with outcomes } = none := absent
  simp only [createNew, Fallible.bind_run, show attempt dir = _ from ready, Fallible.get_run, absent,
    Option.isSome_none, Bool.false_eq_true, if_false, Fallible.modify_run]

end Dir
end WalKv
