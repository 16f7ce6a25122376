import WalKv.Wal.Log

/-! The only panic of the write-ahead log is that of an unwrapped `None`, where a list of segments
is empty. -/
namespace WalKv
open Fallible (Spares Never)

/-- Another panic than the one of an unwrapped `None`. -/
def Stop.Foreign (stop : Stop) : Prop :=
  ∃ msg, stop = .panic msg ∧ msg ≠ "called `Option::unwrap()` on a `None` value"

namespace Stop.Foreign
variable {stop : Stop} (foreign : stop.Foreign)
include foreign

theorem err (error : Error) : Stop.err error ≠ stop := by
  obtain ⟨msg, rfl, _⟩ := foreign
  simp

theorem mapError {α : Type} (r : Except Error α) : r.mapError Stop.err ≠ .error stop := by
  cases r with
  | error error => exact fun same => foreign.err error (Except.error.inj same)
  | ok a => simp [Except.mapError]

theorem crashed : Stop.crashed ≠ stop := by
  obtain ⟨msg, rfl, _⟩ := foreign
  simp

theorem unwrap : Stop.panic "called `Option::unwrap()` on a `None` value" ≠ stop := by
  obtain ⟨msg, rfl, other⟩ := foreign
  exact fun same => other (Stop.panic.inj same).symm

end Stop.Foreign

section Operations
variable {stop : Stop} (foreign : stop.Foreign)
include foreign

namespace Dir

theorem attempt_never : Never stop attempt := by
  intro dir _
  refine ⟨?_, trivial⟩
  unfold attempt
  split
  · simp
  · simp
  · exact fun same => foreign.err _ (Except.error.inj same)
  · exact fun same => foreign.crashed (Except.error.inj same)

theorem existing_never (base : Nat) : Never stop (existing base) := by
  refine (attempt_never foreign).bind fun _ => Spares.get.bind fun dir => ?_
  split
  · exact .pure _
  · exact .stop (foreign.err _)

theorem read_never (base : Nat) : Never stop (read base) :=
  (existing_never foreign base).bind fun _ => .pure _

theorem syncAll_never (base : Nat) : Never stop (syncAll base) :=
  (existing_never foreign base).bind fun _ => .modify fun _ => id

theorem removeFile_never (base : Nat) : Never stop (removeFile base) :=
  (existing_never foreign base).bind fun _ => .modify fun _ => id

theorem createNew_never (base : Nat) : Never stop (createNew base) :=
  (attempt_never foreign).bind fun _ => Spares.get.bind fun _ =>
    .ite (.stop (foreign.err _)) (.modify fun _ => id)

theorem write_never (base : Nat) (bytes : Bytes) (dir : Dir) :
    (dir.write base bytes).2.1 ≠ .error stop := by
  have attempted := (attempt_never foreign dir trivial).1
  rw [write]
  exact attempted

end Dir

namespace Segment

omit foreign in
theorem onDir_never {α : Type} {m : Fallible Stop Dir α} (never : Never stop m) :
    Never stop (onDir m) :=
  Spares.part never (fun _ => id) fun _ _ _ => id

theorem create_never (base : Nat) : Never stop (create base) :=
  (Dir.createNew_never foreign base).bind fun _ => .pure _

theorem flushBuf_never : Never stop flushBuf := by
  rintro ⟨dir, seg⟩ _
  refine ⟨?_, trivial⟩
  simp only [flushBuf]
  split_ifs
  · simp
  · exact Dir.write_never foreign seg.baseIndex seg.buffer dir

theorem writeFile_never (bytes : Bytes) : Never stop (writeFile bytes) := by
  rintro ⟨dir, seg⟩ _
  exact ⟨Dir.write_never foreign seg.baseIndex bytes dir, trivial⟩

theorem writeAll_never (bytes : Bytes) : Never stop (writeAll bytes) := by
  refine Spares.get.bind fun ⟨_, seg⟩ => ?_
  refine .ite (.modify fun _ => id) ?_
  exact (Spares.when (flushBuf_never foreign)).bind fun _ =>
    .ite (writeFile_never foreign bytes) (.modify fun _ => id)

theorem writeParts_never (parts : List Bytes) : Never stop (writeParts parts) := by
  induction parts with
  | nil => exact .pure _
  | cons part parts ih => exact (writeAll_never foreign part).bind fun _ => ih

theorem sync_never : Never stop sync :=
  (flushBuf_never foreign).bind fun _ => Spares.get.bind fun _ =>
    onDir_never (Dir.syncAll_never foreign _)

theorem append_never [Checksum] (payload : Bytes) : Never stop (append payload) :=
  (writeParts_never foreign _).bind fun _ => .modify fun _ => id

theorem iter_never [Checksum] (seg : Segment) : Never stop seg.iter :=
  (Dir.read_never foreign _).bind fun _ => .pure _

theorem abandon_never {α : Type} {why : Stop} (other : why ≠ stop) (seg : Segment) :
    Never stop (seg.abandon (α := α) why) := by
  intro dir _
  refine ⟨?_, trivial⟩
  unfold abandon
  split_ifs
  · exact fun same => foreign.crashed (Except.error.inj same)
  · intro same
    rcases why.unlessCrashed_cases (flushBuf (dir, seg)).1 with kept | crashed
    · exact other (kept.symm.trans (Except.error.inj same))
    · exact foreign.crashed (crashed.symm.trans (Except.error.inj same))

theorem remove_never (seg : Segment) : Never stop seg.remove := by
  intro dir _
  refine ⟨?_, trivial⟩
  have removed := (Dir.removeFile_never foreign seg.baseIndex dir trivial).1
  unfold remove
  split
  · simp
  · rename_i why _ ran
    rw [ran] at removed
    have other : why ≠ stop := fun same => removed (congrArg _ same)
    exact (abandon_never foreign other seg _ trivial).1

end Segment

namespace Log

omit foreign in
theorem onDir_never {α : Type} {m : Fallible Stop Dir α} (never : Never stop m) :
    Never stop (onDir m) :=
  Spares.part never (fun _ => id) fun _ _ _ => id

theorem onLast_never {α : Type} {m : Segment.Method α} (never : Never stop m) :
    Never stop (onLast m) := by
  intro log _
  refine ⟨?_, trivial⟩
  unfold onLast
  split
  · exact (never _ trivial).1
  · exact fun same => foreign.unwrap (Except.error.inj same)

theorem onFresh_never {m : Segment.Method Unit} (never : Never stop m) (seg : Segment) :
    Never stop (onFresh m seg) := by
  intro log _
  refine ⟨?_, trivial⟩
  have ended := (never (log.dir, seg) trivial).1
  unfold onFresh
  split
  · simp
  · rename_i why _ seg' ran
    rw [ran] at ended
    have other : why ≠ stop := fun same => ended (congrArg _ same)
    exact (Segment.abandon_never foreign other seg' _ trivial).1

theorem syncSegments_never (segments : List Segment) (dir : Dir) :
    (syncSegments segments dir).1 ≠ .error stop := by
  induction segments generalizing dir with
  | nil => simp [syncSegments]
  | cons seg rest ih =>
    have ended := (Segment.sync_never foreign (dir, seg) trivial).1
    unfold syncSegments
    split
    · exact ih _
    · rename_i ran
      rw [ran] at ended
      exact ended

theorem sync_never : Never stop sync :=
  fun log _ => ⟨syncSegments_never foreign log.segments log.dir, trivial⟩

theorem dropTrailing_never (keepLast fuel : Nat) : Never stop (dropTrailing keepLast fuel) := by
  induction fuel with
  | zero => exact .pure _
  | succ fuel ih =>
    refine Spares.get.bind fun log => ?_
    split
    · refine .ite (Spares.bind (.modify fun _ => id) fun _ => ?_) (.pure _)
      exact (onDir_never (Segment.remove_never foreign _)).bind fun _ => ih
    · exact .pure _

variable [Checksum]

theorem appendAll_never (payloads : List Bytes) : Never stop (appendAll payloads) := by
  induction payloads with
  | nil => exact .pure _
  | cons payload rest ih => exact (Segment.append_never foreign payload).bind fun _ => ih

theorem rewriteLast_never (keepLast : Nat) : Never stop (rewriteLast keepLast) := by
  refine Spares.get.bind fun log => ?_
  split
  · exact .stop foreign.unwrap
  · refine (onDir_never (Segment.iter_never foreign _)).bind fun items => ?_
    refine Spares.bind (.lift (foreign.mapError _)) fun kept => ?_
    refine Spares.bind (.modify fun _ => id) fun _ => ?_
    refine (onDir_never (Segment.remove_never foreign _)).bind fun _ => ?_
    refine (onDir_never (Segment.create_never foreign _)).bind fun fresh => ?_
    refine (onFresh_never foreign (appendAll_never foreign kept) fresh).bind fun fresh => ?_
    exact (onFresh_never foreign (Segment.sync_never foreign) fresh).bind fun _ => .modify fun _ => id

theorem truncateSuffix_never (keepLast : Nat) : Never stop (truncateSuffix keepLast) := by
  refine Spares.get.bind fun log => .ite (.pure _) (.ite (.stop (foreign.err _)) ?_)
  refine (dropTrailing_never foreign _ _).bind fun _ => ?_
  exact (rewriteLast_never foreign keepLast).bind fun _ => .modify fun _ => id

theorem append_never (payload : Bytes) : Never stop (append payload) := by
  refine Spares.get.bind fun log => ?_
  split
  · exact .stop foreign.unwrap
  · have rotates : Never stop (do
        let seg ← onDir (Segment.create (log.lastIndex + 1))
        push seg) :=
      (onDir_never (Segment.create_never foreign _)).bind fun _ => .modify fun _ => id
    refine (Spares.when rotates).bind fun _ => ?_
    refine (onLast_never foreign (Segment.append_never foreign payload)).bind fun _ => ?_
    exact Spares.bind (.modify fun _ => id) fun _ => .pure _

theorem readSegments_never (segments : List Segment) : Never stop (readSegments segments) := by
  induction segments with
  | nil => exact .pure _
  | cons seg rest ih =>
    refine (Segment.iter_never foreign seg).bind fun items => ?_
    exact Spares.bind (.lift (foreign.mapError _)) fun _ => ih.bind fun _ => .pure _

theorem readAll_never (log : Log) : WalOps.readAll log ≠ .error stop :=
  have never : Never stop readAll :=
    Spares.get.bind fun log => onDir_never (readSegments_never foreign log.segments)
  (never log trivial).1

end Log
end Operations
end WalKv
