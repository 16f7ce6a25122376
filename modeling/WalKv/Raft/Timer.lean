import WalKv.Raft.Bincode
import WalKv.Raft.Running
import WalKv.Wal.Panics

/-! The election timer panics on an empty range of milliseconds. A configuration is checked for an
empty range of durations. -/
namespace WalKv
open Fallible (Spares Never)

/-- What `gen_range` panics with. -/
def timerPanic : Stop := .panic "cannot sample empty range"

theorem timerPanic_foreign : timerPanic.Foreign := ⟨_, rfl, by decide⟩

/-- The bounds differ in milliseconds, as the timer counts them. -/
def TimeoutRange.Timed (range : TimeoutRange) : Prop := asMillis range.start < asMillis range.stop

instance (range : TimeoutRange) : Decidable range.Timed :=
  inferInstanceAs (Decidable (asMillis range.start < asMillis range.stop))

theorem between_millis_iff {start stop : Nat} : start / 1000000 < stop / 1000000 ↔
    ∃ ms, start < fromMillis ms ∧ fromMillis ms ≤ stop := by
  simp only [fromMillis]
  constructor
  · intro less
    exact ⟨stop / 1000000, by omega, by omega⟩
  · rintro ⟨ms, above, within⟩
    omega

theorem TimeoutRange.timed_iff {range : TimeoutRange} : range.Timed ↔
    ∃ ms, range.start % fromMillis (2 ^ 64) < fromMillis ms ∧
      fromMillis ms ≤ range.stop % fromMillis (2 ^ 64) := by
  have narrowed (duration : Nat) :
      asMillis duration = duration % fromMillis (2 ^ 64) / 1000000 := by
    simp only [asMillis, fromMillis]
    omega
  rw [Timed, narrowed, narrowed, between_millis_iff]

theorem HardFile.persist_never (hard : HardState) : Never timerPanic (HardFile.persist hard) := by
  intro file _
  refine ⟨?_, trivial⟩
  unfold HardFile.persist
  split <;> simp [timerPanic]

namespace RaftCore

section Elections
variable {W : Type} (clock : Clock)

/-- The timer of this core can be armed. -/
def Timed (core : RaftCore W) : Prop := core.electionTimeout.Timed

theorem persistHard_spares : Spares timerPanic Timed (persistHard : Method W Unit) := by
  intro core timed
  have spares : Spares timerPanic Timed (Fallible.part RaftCore.hardPath
      (fun file (core : RaftCore W) => { core with hardPath := file }) (HardFile.persist core.hard)) :=
    .part (HardFile.persist_never core.hard) (fun _ _ => trivial) fun _ _ timed _ => timed
  exact spares core timed

theorem resetElectionTimer_spares :
    Spares timerPanic Timed (resetElectionTimer clock : Method W Unit) := by
  intro core timed
  rw [resetElectionTimer_timed timed]
  exact ⟨by simp, timed⟩

theorem becomeFollower_spares (term : Nat) (leader : Option Nat) :
    Spares timerPanic Timed (becomeFollower term leader : Method W Unit) := by
  refine Spares.get.bind fun core => ?_
  refine Spares.bind (.when ?_) fun _ => .modify fun _ timed => timed
  exact Spares.bind (.modify fun _ timed => timed) fun _ => persistHard_spares

theorem becomeCandidate_spares :
    Spares timerPanic Timed (becomeCandidate clock : Method W RequestVoteArgs) := by
  refine Spares.bind (.modify fun _ timed => timed) fun _ => ?_
  refine persistHard_spares.bind fun _ => ?_
  refine Spares.bind (.modify fun _ timed => timed) fun _ => ?_
  exact (resetElectionTimer_spares clock).bind fun _ => Spares.get.bind fun _ => .pure _

theorem handleRequestVote_spares (args : RequestVoteArgs) :
    Spares timerPanic Timed (handleRequestVote clock args : Method W RequestVoteReply) := by
  refine Spares.get.bind fun core => .ite (.pure _) ?_
  refine Spares.bind (.when (becomeFollower_spares _ _)) fun _ => Spares.get.bind fun core => ?_
  refine Spares.bind (.when ?_) fun _ => Spares.get.bind fun _ => .pure _
  refine Spares.bind (.modify fun _ timed => timed) fun _ => ?_
  exact persistHard_spares.bind fun _ => resetElectionTimer_spares clock

theorem recogniseLeader_spares (args : AppendEntriesArgs) :
    Spares timerPanic Timed (recogniseLeader args : Method W Unit) := by
  intro core timed
  unfold recogniseLeader
  split_ifs
  · exact becomeFollower_spares _ _ core timed
  · exact ⟨by simp, timed⟩

end Elections

section Replication
variable [Checksum] [Bincode]

omit [Checksum] [Bincode] in
theorem onLog_spares {α : Type} {m : Fallible Stop Log α} (never : Never timerPanic m) :
    Spares timerPanic Timed (onLog m) :=
  .part never (fun _ _ => trivial) fun _ _ timed _ => timed

theorem appendReplicated_spares (entry : LogEntry) :
    Spares timerPanic Timed (appendReplicated entry : Method Log Unit) := by
  refine Spares.bind (.lift (timerPanic_foreign.mapError _)) fun bytes => ?_
  refine (onLog_spares (Log.append_never timerPanic_foreign bytes)).bind fun _ => ?_
  exact .modify fun _ timed => timed

omit [Bincode] in
theorem truncateFrom_spares (index : Nat) :
    Spares timerPanic Timed (truncateFrom index : Method Log Unit) :=
  Spares.bind (.modify fun _ timed => timed) fun _ =>
    onLog_spares (Log.truncateSuffix_never timerPanic_foreign _)

theorem splice_spares (entries : List LogEntry) :
    Spares timerPanic Timed (splice entries : Method Log Unit) := by
  induction entries with
  | nil => exact .pure _
  | cons entry rest ih =>
    refine Spares.get.bind fun core => .ite ih ?_
    split
    · refine .ite ih ?_
      refine (truncateFrom_spares _).bind fun _ => ?_
      exact (appendReplicated_spares entry).bind fun _ => ih
    · exact (appendReplicated_spares entry).bind fun _ => ih

theorem store_spares (args : AppendEntriesArgs) :
    Spares timerPanic Timed (store args : Method Log AppendEntriesReply) := by
  have adopts (core : RaftCore Log) (timed : core.Timed) :
      (adoptCommit args.leaderCommit core).Timed := by
    unfold adoptCommit
    split_ifs <;> exact timed
  refine (splice_spares _).bind fun _ => ?_
  refine (onLog_spares (Log.sync_never timerPanic_foreign)).bind fun _ => ?_
  exact Spares.bind (.modify adopts) fun _ => Spares.get.bind fun _ => .pure _

theorem handleAppendEntries_spares (clock : Clock) (args : AppendEntriesArgs) :
    Spares timerPanic Timed (handleAppendEntries clock args : Method Log AppendEntriesReply) := by
  refine Spares.get.bind fun core => .ite (.pure _) ?_
  refine (recogniseLeader_spares args).bind fun _ => ?_
  refine (resetElectionTimer_spares clock).bind fun _ => ?_
  exact Spares.get.bind fun _ => .ite (.pure _) (.ite (.pure _) (store_spares args))

theorem restore_spares {cfg : Config} (timed : cfg.electionTimeout.Timed) (clock : Clock)
    (hardPath : HardFile) (snapshot : SnapshotMeta) (log : Log) :
    restore clock cfg hardPath snapshot log ≠ .error timerPanic := by
  rcases read : WalOps.readAll log with stop | records
  · have other := Log.readAll_never timerPanic_foreign log
    rw [read] at other
    rw [restore, read]
    exact fun same => other (congrArg Except.error (Except.error.inj same))
  rcases loaded : loadEntries snapshot records with error | entries
  · rw [restore, read]
    simp only [bind, Except.bind, loaded]
    exact timerPanic_foreign.mapError (.error error : Except Error (RaftCore Log))
  · rw [restore_eq read loaded timed]
    simp

theorem restore_untimed {cfg : Config} (untimed : ¬ cfg.electionTimeout.Timed) (clock : Clock)
    (hardPath : HardFile) (snapshot : SnapshotMeta) {log : Log} (empty : WalOps.readAll log = .ok []) :
    restore clock cfg hardPath snapshot log = .error timerPanic := by
  rw [restore, empty]
  have panics : resetElectionTimer clock (assemble clock cfg hardPath snapshot log []) = _ :=
    resetElectionTimer_untimed untimed
  simp only [bind, Except.bind, loadEntries, Except.mapError, panics]
  rfl

end Replication
end RaftCore

namespace Config
variable [Checksum] [Bincode]

/-- No call that arms the timer panics there, on any node with this configuration. -/
structure TimerSafe (cfg : Config) : Prop where
  restore : ∀ clock hardPath snapshot (log : Log),
    RaftCore.restore clock cfg hardPath snapshot log ≠ .error timerPanic
  becomeCandidate : ∀ clock (core : RaftCore Log), core.electionTimeout = cfg.electionTimeout →
    (core.becomeCandidate clock).1 ≠ .error timerPanic
  handleRequestVote : ∀ clock args (core : RaftCore Log),
    core.electionTimeout = cfg.electionTimeout →
      (RaftCore.handleRequestVote clock args core).1 ≠ .error timerPanic
  handleAppendEntries : ∀ clock args (core : RaftCore Log),
    core.electionTimeout = cfg.electionTimeout →
      (RaftCore.handleAppendEntries clock args core).1 ≠ .error timerPanic

theorem timerSafe_iff {cfg : Config} : cfg.TimerSafe ↔ cfg.electionTimeout.Timed := by
  constructor
  · intro safe
    by_contra untimed
    have empty : WalOps.readAll (⟨Dir.empty "wal", cfg.segmentMaxBytes, [], 1, 0⟩ : Log) =
      .ok [] := rfl
    exact safe.restore ⟨0, 0⟩ .absent default _ (RaftCore.restore_untimed untimed _ _ _ empty)
  · intro timed
    have on (core : RaftCore Log) (same : core.electionTimeout = cfg.electionTimeout) :
        core.Timed := by
      rw [RaftCore.Timed, same]
      exact timed
    constructor
    · exact RaftCore.restore_spares timed
    · exact fun clock core same => (RaftCore.becomeCandidate_spares clock core (on core same)).1
    · exact fun clock args core same =>
        (RaftCore.handleRequestVote_spares clock args core (on core same)).1
    · exact fun clock args core same =>
        (RaftCore.handleAppendEntries_spares clock args core (on core same)).1

/-- A configuration that is accepted keeps the timer from panicking exactly if a whole millisecond
lies above its lower bound and not above its upper one. What counts of bounds of `2 ^ 64`
milliseconds and more is their remainder. -/
theorem validated_timerSafe_iff {cfg : Config} (valid : cfg.validate = .ok ()) :
    (cfg.TimerSafe ↔
      cfg.electionTimeout.stop < fromMillis (2 ^ 64) ∧
          (∃ ms, cfg.electionTimeout.start < fromMillis ms ∧
            fromMillis ms ≤ cfg.electionTimeout.stop) ∨
        fromMillis (2 ^ 64) ≤ cfg.electionTimeout.stop ∧
          ∃ ms, cfg.electionTimeout.start % fromMillis (2 ^ 64) < fromMillis ms ∧
            fromMillis ms ≤ cfg.electionTimeout.stop % fromMillis (2 ^ 64)) ∧
      ∀ lo hi, cfg.electionTimeout = ⟨fromMillis lo, fromMillis hi⟩ → hi < 2 ^ 64 →
        cfg.TimerSafe := by
  have range := validate_range valid
  refine ⟨?_, fun lo hi bounds few => timerSafe_iff.mpr ?_⟩
  · rw [timerSafe_iff, TimeoutRange.timed_iff]
    rcases Nat.lt_or_ge cfg.electionTimeout.stop (fromMillis (2 ^ 64)) with short | long
    · rw [Nat.mod_eq_of_lt short, Nat.mod_eq_of_lt (range.trans short)]
      exact ⟨fun between => .inl ⟨short, between⟩,
        fun either => either.elim And.right fun wrapped => absurd short (Nat.not_lt.mpr wrapped.1)⟩
    · exact ⟨fun between => .inr ⟨long, between⟩,
        fun either => either.elim (fun plain => absurd long (Nat.not_le.mpr plain.1)) And.right⟩
  · rw [bounds] at range
    rw [TimeoutRange.Timed, bounds]
    simp only [fromMillis, asMillis] at range ⊢
    omega

end Config

/-- The defaults of a single node. -/
theorem Config.validated_timerSafe_iff_default :
    (Config.new 1).validate = .ok () ∧ (Config.new 1).TimerSafe := by
  have valid : (Config.new 1).validate = .ok () := by decide
  have short : (Config.new 1).electionTimeout.stop < fromMillis (2 ^ 64) := by decide
  have between : (Config.new 1).electionTimeout.start < fromMillis 151 ∧
      fromMillis 151 ≤ (Config.new 1).electionTimeout.stop := by decide
  exact ⟨valid, (Config.validated_timerSafe_iff valid).1.mpr (.inl ⟨short, 151, between⟩)⟩

/-- A single node with these bounds. -/
def timing (start stop : Nat) : Config := { Config.new 1 with electionTimeout := ⟨start, stop⟩ }

/-- A node with this configuration panics when it is started on an empty directory. -/
def Config.PanicsAtStart (cfg : Config) : Prop :=
  ∃ log, (Log.open cfg.segmentMaxBytes (Dir.empty "wal")).1 = .ok log ∧
    RaftCore.restore ⟨0, 0⟩ cfg HardFile.absent default log = .error timerPanic

theorem timing_panics {start stop : Nat} (untimed : ¬ (timing start stop).electionTimeout.Timed) :
    (timing start stop).PanicsAtStart := by
  have opened : ((Log.open (Config.new 1).segmentMaxBytes (Dir.empty "wal")).1.toOption.any fun log =>
      decide (WalOps.readAll log = .ok [])) = true := by
    decide +kernel
  obtain ⟨log, found, empty⟩ := (Option.any_eq_true _ _).mp opened
  exact ⟨log, Except.of_toOption_some found,
    RaftCore.restore_untimed untimed _ _ _ (of_decide_eq_true empty)⟩

/-- Bounds within one millisecond, and a bound of `2 ^ 64` milliseconds, are accepted. -/
theorem validated_timer_panics :
    (timing 150100000 150900000).validate = .ok () ∧ (timing 150100000 150900000).PanicsAtStart ∧
      (timing 150000000 (fromMillis (2 ^ 64))).validate = .ok () ∧
      (timing 150000000 (fromMillis (2 ^ 64))).PanicsAtStart := by
  refine ⟨by decide, timing_panics ?_, by decide, timing_panics ?_⟩
  · decide
  · decide

end WalKv
