import WalKv.Raft.Compaction
import WalKv.Raft.Vote

/-! The additions of the core in a release build, where `u64` wraps around. Terms and indices come
from requests that nobody checks, and are incremented later: the term by a campaign, the last index
by the leader that a campaign makes, the index of the snapshot in every lookup. -/
namespace WalKv
open RaftCore Transition

/-- `a + b` on `u64`. -/
def wrappingAdd (a b : Nat) : Nat := (a + b) % 2 ^ 64

theorem wrappingAdd_eq {a b : Nat} (fits : a + b < 2 ^ 64) : wrappingAdd a b = a + b :=
  Nat.mod_eq_of_lt fits

namespace Wrapping
variable {W : Type}

def baseIndex (core : RaftCore W) : Nat := wrappingAdd core.snapshot.lastIncludedIndex 1

def termAt (core : RaftCore W) (index : Nat) : Option Nat :=
  if index = core.snapshot.lastIncludedIndex then some core.snapshot.lastIncludedTerm
  else if index < baseIndex core then none
  else core.entries[index - baseIndex core]?.map LogEntry.term

def becomeCandidate (clock : Clock) : Method W RequestVoteArgs := do
  Fallible.modify fun core =>
    { core with
      role := .candidate
      hard := ⟨wrappingAdd core.hard.currentTerm 1, some core.id⟩ }
  persistHard
  Fallible.modify fun core => { core with leaderId := none }
  resetElectionTimer clock
  let core ← Fallible.get
  pure ⟨core.hard.currentTerm, core.id, core.lastLogIndex, core.lastLogTerm⟩

def becomeLeader (core : RaftCore W) : RaftCore W :=
  { core with
    role := .leader
    leaderId := some core.id
    nextIndex := fun p => if p ∈ core.peers then some (wrappingAdd core.lastLogIndex 1) else none
    matchIndex := fun p => if p ∈ core.peers then some 0 else none }

def advanceCommitIndex (core : RaftCore W) : RaftCore W :=
  match core.sortedMatches[core.quorum - 1]? with
  | some candidate =>
    if core.commitIndex < candidate ∧ termAt core candidate = some core.hard.currentTerm then
      { core with commitIndex := candidate }
    else core
  | none => core

section Log
variable [WalOps W] [Bincode]

def appendCommand (command : Command) : Method W LogEntry := do
  let core ← Fallible.get
  if core.role ≠ .leader then
    Fallible.stop (.err (.raft "only the leader may append commands"))
  else do
    let entry : LogEntry := ⟨core.hard.currentTerm, wrappingAdd core.lastLogIndex 1, command⟩
    let bytes ← Fallible.lift ((Bincode.serialize entry).mapError .err)
    let _ ← onLog (WalOps.append bytes)
    Fallible.modify fun core => { core with entries := core.entries ++ [entry] }
    pure entry

def winElection : Method W Unit := do
  Fallible.modify becomeLeader
  let _ ← appendCommand .noop
  sync
  Fallible.modify advanceCommitIndex

def splice : List LogEntry → Method W Unit
  | [] => pure ()
  | entry :: rest => do
    let core ← Fallible.get
    if entry.index < baseIndex core then splice rest
    else
      match termAt core entry.index with
      | some t =>
        if t = entry.term then splice rest
        else do
          truncateFrom entry.index
          appendReplicated entry
          splice rest
      | none => do
        appendReplicated entry
        splice rest

def store (args : AppendEntriesArgs) : Method W AppendEntriesReply := do
  splice args.entries
  sync
  Fallible.modify (adoptCommit args.leaderCommit)
  let core ← Fallible.get
  pure ⟨core.hard.currentTerm, true, 0⟩

def matchAndStore (args : AppendEntriesArgs) : Method W AppendEntriesReply := do
  let core ← Fallible.get
  if core.lastLogIndex < args.prevLogIndex then
    pure (core.reject (wrappingAdd core.lastLogIndex 1))
  else if (termAt core args.prevLogIndex).any (· ≠ args.prevLogTerm) then
    pure (core.reject args.prevLogIndex)
  else store args

def handleAppendEntries (clock : Clock) (args : AppendEntriesArgs) :
    Method W AppendEntriesReply := do
  let core ← Fallible.get
  if args.term < core.hard.currentTerm then
    pure (core.reject 0)
  else do
    recogniseLeader args
    resetElectionTimer clock
    matchAndStore args

end Log

section Exact
variable {core : RaftCore W} {clock : Clock}

theorem becomeCandidate_eq (fits : core.hard.currentTerm + 1 < 2 ^ 64) :
    becomeCandidate clock core = RaftCore.becomeCandidate clock core := by
  simp only [becomeCandidate, RaftCore.becomeCandidate, Fallible.modify_bind, wrappingAdd_eq fits]

theorem becomeLeader_eq (fits : core.lastLogIndex + 1 < 2 ^ 64) :
    becomeLeader core = core.becomeLeader := by
  rw [becomeLeader, RaftCore.becomeLeader, wrappingAdd_eq fits]

/-- The index after that of the snapshot is a `u64` number. -/
def Based (core : RaftCore W) : Prop := core.snapshot.lastIncludedIndex + 1 < 2 ^ 64

theorem Based.entriesOnly {core' : RaftCore W} (based : Based core) (only : EntriesOnly core core') :
    Based core' := by
  rw [Based, only]
  exact based

theorem baseIndex_eq (based : Based core) : baseIndex core = core.baseIndex := wrappingAdd_eq based

theorem termAt_eq (based : Based core) (index : Nat) : termAt core index = core.termAt index := by
  rw [termAt, RaftCore.termAt, baseIndex_eq based]

theorem advanceCommitIndex_eq (based : Based core) :
    advanceCommitIndex core = core.advanceCommitIndex := by
  rw [advanceCommitIndex, RaftCore.advanceCommitIndex]
  cases core.sortedMatches[core.quorum - 1]? with
  | none => rfl
  | some candidate => simp only [termAt_eq based]

variable [WalOps W] [Bincode]

theorem appendCommand_eq (fits : core.lastLogIndex + 1 < 2 ^ 64) (command : Command) :
    appendCommand command core = RaftCore.appendCommand command core := by
  simp only [appendCommand, RaftCore.appendCommand, Fallible.bind_ok (Fallible.get_run core),
    wrappingAdd_eq fits]

theorem winElection_eq (fits : core.lastLogIndex + 1 < 2 ^ 64) (based : Based core) :
    winElection core = RaftCore.winElection core := by
  have leading : core.becomeLeader.lastLogIndex + 1 < 2 ^ 64 := fits
  have basedLeader : Based core.becomeLeader := based
  rw [winElection, RaftCore.winElection, Fallible.modify_bind, Fallible.modify_bind,
    becomeLeader_eq fits]
  refine Fallible.bind_congr (appendCommand_eq leading .noop) fun _ appended ran => ?_
  have kept : EntriesOnly core.becomeLeader appended := by
    have only := (appendCommand_entries .noop core.becomeLeader).1
    rwa [ran] at only
  refine Fallible.bind_congr rfl fun _ synced ran => ?_
  have only := (onLog_only WalOps.sync).run ran
  rw [Fallible.modify_run, Fallible.modify_run,
    advanceCommitIndex_eq ((basedLeader.entriesOnly kept).entriesOnly only)]

theorem splice_eq (entries : List LogEntry) (based : Based core) :
    splice entries core = RaftCore.splice entries core := by
  induction entries generalizing core with
  | nil => rfl
  | cons entry rest ih =>
    have appends {core : RaftCore W} (based : Based core) :
        (appendReplicated entry >>= fun _ => splice rest) core =
          (appendReplicated entry >>= fun _ => RaftCore.splice rest) core :=
      Fallible.bind_congr rfl fun _ _ ran =>
        ih (based.entriesOnly ((appendReplicated_only entry).run ran))
    rw [splice, RaftCore.splice]
    simp only [Fallible.bind_ok (Fallible.get_run core), baseIndex_eq based, termAt_eq based]
    split_ifs
    · exact ih based
    · cases core.termAt entry.index with
      | none => exact appends based
      | some t =>
        simp only
        split_ifs
        · exact ih based
        · exact Fallible.bind_congr rfl fun _ _ ran =>
            appends (based.entriesOnly ((truncateFrom_only entry.index).run ran))

theorem matchAndStore_eq {args : AppendEntriesArgs} (based : Based core)
    (sent : args.prevLogIndex < 2 ^ 64) :
    matchAndStore args core = RaftCore.matchAndStore args core := by
  rw [matchAndStore, RaftCore.matchAndStore]
  simp only [Fallible.bind_ok (Fallible.get_run core), termAt_eq based]
  split_ifs with short differs
  · rw [wrappingAdd_eq (by omega)]
  · rfl
  · exact Fallible.bind_congr (splice_eq _ based) fun _ _ _ => rfl

theorem handleAppendEntries_eq {args : AppendEntriesArgs} (based : Based core)
    (sent : args.prevLogIndex < 2 ^ 64) :
    handleAppendEntries clock args core = RaftCore.handleAppendEntries clock args core := by
  rw [handleAppendEntries, RaftCore.handleAppendEntries]
  simp only [Fallible.bind_ok (Fallible.get_run core)]
  split_ifs
  · rfl
  · refine Fallible.bind_congr rfl fun _ known recognised => ?_
    refine Fallible.bind_congr rfl fun _ timed armed => matchAndStore_eq ?_ sent
    have same := (recogniseLeader_sameLog args).run recognised
    have later := (resetElectionTimer_sameLog clock).run armed
    rw [Based, (same.trans later).snapshot]
    exact based

end Exact
end Wrapping

namespace RaftCore
variable {W : Type}

/-- The term in memory is raised at most to `bound`, and that on disk not above it. -/
structure Climbs (bound : Nat) (core core' : RaftCore W) : Prop where
  memory : core.hard.currentTerm ≤ core'.hard.currentTerm
  limit : core'.hard.currentTerm = core.hard.currentTerm ∨ core'.hard.currentTerm ≤ bound
  disk : core'.hardPath.load = core.hardPath.load ∨
    core.hard.currentTerm ≤ core'.hardPath.load.currentTerm ∧
      core'.hardPath.load.currentTerm ≤ core'.hard.currentTerm

namespace Climbs
variable {bound : Nat} {core core' core'' : RaftCore W}

theorem same (hard : core'.hard = core.hard) (file : core'.hardPath = core.hardPath) :
    Climbs bound core core' := by
  constructor
  · rw [hard]
  · exact .inl (congrArg _ hard)
  · exact .inl (congrArg _ file)

theorem refl (core : RaftCore W) : Climbs bound core core := .same rfl rfl

theorem trans (first : Climbs bound core core') (second : Climbs bound core' core'') :
    Climbs bound core core'' := by
  have lower := first.memory
  have upper := second.memory
  constructor
  · exact lower.trans upper
  · have before := first.limit
    have after := second.limit
    omega
  · rcases second.disk with unchanged | ⟨above, below⟩
    · rw [unchanged]
      exact first.disk.imp_right fun written => ⟨written.1, written.2.trans upper⟩
    · exact .inr ⟨lower.trans above, below⟩

end Climbs

theorem persistHard_climbs (bound : Nat) :
    Fallible.Keeps (Climbs bound) (persistHard : Method W Unit) := by
  intro core
  refine ⟨le_rfl, .inl rfl, ?_⟩
  simp only [persistHard, Fallible.part_run, HardFile.persist]
  split
  · exact .inr ⟨le_rfl, le_rfl⟩
  · exact .inr ⟨le_rfl, le_rfl⟩
  · exact .inl rfl
  · exact .inr ⟨le_rfl, le_rfl⟩

theorem resetElectionTimer_climbs (bound : Nat) (clock : Clock) :
    Fallible.Keeps (Climbs bound) (resetElectionTimer clock : Method W Unit) := by
  intro core
  obtain ⟨deadline, same⟩ := resetElectionTimer_deadline clock core
  rw [same]
  exact .same rfl rfl

theorem becomeFollower_climbs (term : Nat) (leader : Option Nat) :
    Fallible.Keeps (Climbs term) (becomeFollower term leader : Method W Unit) := by
  intro core
  refine Fallible.bind_keeps Climbs.trans (.refl core) ?_
  rintro _ _ ⟨⟩
  refine Fallible.bind_keeps Climbs.trans ?_ fun _ _ _ => .same rfl rfl
  rw [Fallible.when_run]
  split_ifs with newer
  · have adopted : Climbs term core { core with hard := ⟨term, none⟩ } :=
      ⟨newer.le, .inr le_rfl, .inl rfl⟩
    exact adopted.trans (persistHard_climbs term _)
  · exact .refl core

theorem handleRequestVote_climbs (clock : Clock) (args : RequestVoteArgs) :
    Fallible.Keeps (Climbs args.term) (handleRequestVote clock args : Method W RequestVoteReply) := by
  refine .bind Climbs.trans (.get Climbs.refl) fun core => ?_
  split_ifs
  · exact .pure Climbs.refl _
  refine .bind Climbs.trans ?_ fun _ => .bind Climbs.trans (.get Climbs.refl) fun core => ?_
  · rw [Fallible.when]
    split_ifs
    · exact becomeFollower_climbs _ _
    · exact .pure Climbs.refl _
  refine .bind Climbs.trans ?_ fun _ =>
    .bind Climbs.trans (.get Climbs.refl) fun _ => .pure Climbs.refl _
  rw [Fallible.when]
  split_ifs
  · refine .bind Climbs.trans (fun core => ⟨le_rfl, .inl rfl, .inl rfl⟩) fun _ => ?_
    exact .bind Climbs.trans (persistHard_climbs _) fun _ => resetElectionTimer_climbs _ clock
  · exact .pure Climbs.refl _

theorem becomeCandidate_climbs (clock : Clock) (core : RaftCore W) :
    Climbs (core.hard.currentTerm + 1) core (becomeCandidate clock core).2 := by
  rw [becomeCandidate, Fallible.modify_bind]
  have started : Climbs (core.hard.currentTerm + 1) core { core with
      role := .candidate, hard := ⟨core.hard.currentTerm + 1, some core.id⟩ } :=
    ⟨Nat.le_succ _, .inr le_rfl, .inl rfl⟩
  refine started.trans ?_
  refine Fallible.bind_keeps Climbs.trans (persistHard_climbs _ _) fun _ t _ => ?_
  refine Fallible.bind_keeps Climbs.trans (.same rfl rfl) fun _ t _ => ?_
  exact Fallible.bind_keeps Climbs.trans (resetElectionTimer_climbs _ clock t) fun _ t _ => .refl t

section Log
variable [WalOps W] [Bincode]

theorem handleAppendEntries_climbs (clock : Clock) (args : AppendEntriesArgs) :
    Fallible.Keeps (Climbs args.term) (handleAppendEntries clock args : Method W AppendEntriesReply) := by
  refine .bind Climbs.trans (.get Climbs.refl) fun core => ?_
  split_ifs
  · exact .pure Climbs.refl _
  refine .bind Climbs.trans (fun core => ?_) fun _ => ?_
  · unfold recogniseLeader
    split_ifs
    · exact becomeFollower_climbs _ _ core
    · exact .same rfl rfl
  refine .bind Climbs.trans (resetElectionTimer_climbs _ clock) fun _ core => ?_
  have same := (matchAndStore_side args core).ballot
  exact .same (congrArg Ballot.hard same) (congrArg Ballot.hardPath same)

/-- No entry has an index above `bound`, if none had. -/
def Capped (bound : Nat) (core core' : RaftCore W) : Prop :=
  (∀ e ∈ core.entries, e.index ≤ bound) → ∀ e ∈ core'.entries, e.index ≤ bound

namespace Capped
variable {bound : Nat} {core core' core'' : RaftCore W}

omit [WalOps W] [Bincode]

theorem refl (core : RaftCore W) : Capped bound core core := fun capped => capped

theorem trans (first : Capped bound core core') (second : Capped bound core' core'') :
    Capped bound core core'' :=
  fun capped => second (first capped)

theorem same (entries : core'.entries = core.entries) : Capped bound core core' := by
  rw [Capped, entries]
  exact fun capped => capped

end Capped

omit [Bincode] in
theorem truncateFrom_capped (bound index : Nat) :
    Fallible.Keeps (Capped bound) (truncateFrom index : Method W Unit) :=
  .bind Capped.trans (fun _ capped e member => capped e (List.mem_of_mem_filter member))
    fun _ _ => .same rfl

theorem appendReplicated_capped {bound : Nat} {entry : LogEntry} (small : entry.index ≤ bound) :
    Fallible.Keeps (Capped bound) (appendReplicated entry : Method W Unit) := by
  refine .bind Capped.trans (.lift Capped.refl _) fun _ => ?_
  refine .bind Capped.trans (fun _ => .same rfl) fun _ core capped e member => ?_
  rcases List.mem_append.mp member with old | new
  · exact capped e old
  · rw [List.mem_singleton.mp new]
    exact small

theorem splice_capped {bound : Nat} {entries : List LogEntry} (small : ∀ e ∈ entries, e.index ≤ bound) :
    Fallible.Keeps (Capped bound) (splice entries : Method W Unit) := by
  induction entries with
  | nil => exact .pure Capped.refl ()
  | cons entry rest ih =>
    have later := ih fun e member => small e (List.mem_cons_of_mem _ member)
    have appends : Fallible.Keeps (Capped bound) (appendReplicated entry : Method W Unit) :=
      appendReplicated_capped (small entry List.mem_cons_self)
    refine .bind Capped.trans (.get Capped.refl) fun core => ?_
    split_ifs
    · exact later
    · split
      · split_ifs
        · exact later
        · refine .bind Capped.trans (truncateFrom_capped bound _) fun _ => ?_
          exact .bind Capped.trans appends fun _ => later
      · exact .bind Capped.trans appends fun _ => later

theorem handleAppendEntries_capped {bound : Nat} {args : AppendEntriesArgs}
    (small : ∀ e ∈ args.entries, e.index ≤ bound) (clock : Clock) :
    Fallible.Keeps (Capped bound) (handleAppendEntries clock args : Method W AppendEntriesReply) := by
  have stores : Fallible.Keeps (Capped bound) (store args : Method W AppendEntriesReply) := by
    refine .bind Capped.trans (splice_capped small) fun _ => ?_
    refine .bind Capped.trans (fun _ => .same rfl) fun _ => ?_
    refine .bind Capped.trans (fun core => .same ?_) fun _ =>
      .bind Capped.trans (.get Capped.refl) fun _ => .pure Capped.refl _
    rw [Fallible.modify_run, adoptCommit_eq]
  intro core
  obtain ⟨seen, same, _, ⟨ended, _⟩ | ⟨stored, _⟩⟩ := handleAppendEntries_cases clock args core
  · rw [ended]
    exact .same same.entries
  · rw [stored]
    exact Capped.trans (.same same.entries) (stores seen)

theorem winElection_entries (core : RaftCore W) :
    (winElection core).2.hard = core.hard ∧ (winElection core).2.hardPath = core.hardPath ∧
      (winElection core).2.snapshot = core.snapshot ∧
      ((winElection core).2.entries = core.entries ∨ ∃ e, e.index = core.lastLogIndex + 1 ∧
        (winElection core).2.entries = core.entries ++ [e]) := by
  obtain ⟨only, entries⟩ := appendCommand_entries .noop core.becomeLeader
  have ends : ∃ log commitIndex, (winElection core).2 =
      { (appendCommand .noop core.becomeLeader).2 with log, commitIndex } := by
    rw [winElection, Fallible.modify_bind, Fallible.bind_run]
    rcases appendCommand .noop core.becomeLeader with ⟨stop | e, appended⟩
    · exact ⟨_, _, rfl⟩
    · simp only [Fallible.bind_run, sync, onLog, Fallible.part_run]
      rcases WalOps.sync appended.log with ⟨stop | ⟨⟩, log⟩
      · exact ⟨_, _, rfl⟩
      · exact ⟨_, _, advanceCommitIndex_eq _⟩
  obtain ⟨log, commitIndex, ended⟩ := ends
  rw [ended]
  simp only
  rw [only]
  refine ⟨rfl, rfl, rfl, ?_⟩
  rcases entries with same | added
  · exact .inl same
  · exact .inr ⟨_, rfl, added⟩

end Log
end RaftCore

namespace Wrapping

/-- A core, and how many campaigns it has started and won. -/
structure State (W : Type) where
  core : RaftCore W
  raised : Nat

/-- A request, a campaign that is started or won, a newer term in a reply, or a restart on the
hard-state file and any snapshot and log. -/
inductive Event (W : Type) where
  | requestVote (clock : Clock) (args : RequestVoteArgs)
  | appendEntries (clock : Clock) (args : AppendEntriesArgs)
  | timeout (clock : Clock)
  | win
  | follow (term : Nat) (leader : Option Nat)
  | restart (clock : Clock) (cfg : Config) (snapshot : SnapshotMeta) (log : W)

namespace State
variable {W : Type} {s s' : State W} {event : Event W} {M K N : Nat}

/-- The term on disk. -/
def persisted (s : State W) : Nat := s.core.hardPath.load.currentTerm

/-- The sums that the call may compute. -/
def sums (s : State W) : Event W → List Nat
  | .appendEntries _ args => (s.core.snapshot.lastIncludedIndex + 1) ::
      (if s.core.lastLogIndex < args.prevLogIndex then [s.core.lastLogIndex + 1] else [])
  | .timeout _ => [s.core.hard.currentTerm + 1]
  | .win => [s.core.lastLogIndex + 1, s.core.snapshot.lastIncludedIndex + 1]
  | .requestVote .. | .follow .. | .restart .. => []

section Step
variable [WalOps W] [Bincode]

/-- Calls may fail; the core is what they leave behind. -/
def stepWith (becomeCandidate : Clock → Method W RequestVoteArgs) (winElection : Method W Unit)
    (handleAppendEntries : Clock → AppendEntriesArgs → Method W AppendEntriesReply)
    (s : State W) : Event W → Option (State W)
  | .requestVote clock args => some { s with core := (handleRequestVote clock args s.core).2 }
  | .appendEntries clock args => some { s with core := (handleAppendEntries clock args s.core).2 }
  | .timeout clock => some ⟨(becomeCandidate clock s.core).2, s.raised + 1⟩
  | .win => some ⟨(winElection s.core).2, s.raised + 1⟩
  | .follow term leader => some { s with core := (becomeFollower term leader s.core).2 }
  | .restart clock cfg snapshot log =>
    match restore clock cfg s.core.hardPath snapshot log with
    | .ok core => some { s with core }
    | .error _ => none

/-- In a release build. -/
def step : State W → Event W → Option (State W) :=
  stepWith becomeCandidate winElection handleAppendEntries

/-- With unbounded integers. -/
def exactStep : State W → Event W → Option (State W) :=
  stepWith RaftCore.becomeCandidate RaftCore.winElection RaftCore.handleAppendEntries

omit [WalOps W] [Bincode] in
/-- The numbers of a request are `u64` numbers. -/
def Machine (_ : State W) : Event W → Prop
  | .requestVote _ args => args.term < 2 ^ 64 ∧ args.candidateId < 2 ^ 64 ∧
      args.lastLogIndex < 2 ^ 64 ∧ args.lastLogTerm < 2 ^ 64
  | .appendEntries _ args => args.term < 2 ^ 64 ∧ args.leaderId < 2 ^ 64 ∧
      args.prevLogIndex < 2 ^ 64 ∧ args.prevLogTerm < 2 ^ 64 ∧ args.leaderCommit < 2 ^ 64 ∧
      ∀ e ∈ args.entries, e.term < 2 ^ 64 ∧ e.index < 2 ^ 64
  | .follow term _ => term < 2 ^ 64
  | .timeout _ | .win | .restart .. => True

/-- Terms up to `M` and indices up to `K` come in, at most `N` campaigns are started and won, and a
restart reads nothing back that is larger than what came in and was added. -/
def Bounded (M K N : Nat) (s : State W) : Event W → Prop
  | .requestVote _ args => args.term ≤ M
  | .appendEntries _ args => args.term ≤ M ∧ ∀ e ∈ args.entries, e.index ≤ K
  | .timeout _ | .win => s.raised < N
  | .follow term _ => term ≤ M
  | .restart clock cfg snapshot log => snapshot.lastIncludedIndex ≤ K ∧
      ∀ e ∈ ((restore clock cfg s.core.hardPath snapshot log).toOption.map RaftCore.entries).getD [],
        e.index ≤ K + s.raised

instance (s : State W) (event : Event W) : Decidable (s.Machine event) := by
  cases event <;> unfold Machine <;> infer_instance

instance (s : State W) (event : Event W) : Decidable (s.Bounded M K N event) := by
  cases event <;> unfold Bounded <;> infer_instance

theorem step_eq (fits : ∀ n ∈ s.sums event, n < 2 ^ 64) (machine : s.Machine event) :
    s.step event = s.exactStep event := by
  cases event with
  | requestVote _ _ | follow _ _ | restart _ _ _ _ => rfl
  | appendEntries clock args =>
    have based : Based s.core := fits _ List.mem_cons_self
    simp only [step, exactStep, stepWith, handleAppendEntries_eq based machine.2.2.1]
  | timeout clock =>
    simp only [step, exactStep, stepWith, becomeCandidate_eq (fits _ List.mem_cons_self)]
  | win =>
    have based : Based s.core := fits _ (List.mem_cons_of_mem _ List.mem_cons_self)
    simp only [step, exactStep, stepWith, winElection_eq (fits _ List.mem_cons_self) based]

end Step

/-- The numbers of a state, in terms of what came in. -/
structure Within (M K : Nat) (s : State W) : Prop where
  term : s.core.hard.currentTerm ≤ M + s.raised
  saved : s.persisted ≤ s.core.hard.currentTerm
  entries : ∀ e ∈ s.core.entries, e.index ≤ K + s.raised
  snapshot : s.core.snapshot.lastIncludedIndex ≤ K

namespace Within

theorem lastLogIndex (within : s.Within M K) : s.core.lastLogIndex ≤ K + s.raised := by
  rw [RaftCore.lastLogIndex]
  split
  · rename_i e last
    exact within.entries e (List.mem_of_getLast? last)
  · exact within.snapshot.trans (Nat.le_add_right _ _)

theorem climb (within : s.Within M K) {core : RaftCore W} {raised bound : Nat}
    (climbs : Climbs bound s.core core) (more : s.raised ≤ raised) (limit : bound ≤ M + raised)
    (entries : ∀ e ∈ core.entries, e.index ≤ K + raised)
    (snapshot : core.snapshot = s.core.snapshot) :
    Within M K ⟨core, raised⟩ ∧ s.persisted ≤ persisted ⟨core, raised⟩ := by
  have term := within.term
  have saved := within.saved
  have memory := climbs.memory
  have above := climbs.limit
  have disk : s.persisted ≤ core.hardPath.load.currentTerm ∧
      core.hardPath.load.currentTerm ≤ core.hard.currentTerm := by
    rcases climbs.disk with same | written
    · rw [same]
      exact ⟨le_rfl, saved.trans memory⟩
    · exact ⟨saved.trans written.1, written.2⟩
  exact ⟨⟨by simp only; omega, disk.2, entries, by rw [snapshot]; exact within.snapshot⟩, disk.1⟩

section Step
variable [WalOps W] [Bincode]

/-- No sum of an allowed call reaches `2 ^ 64`. -/
theorem sums (within : s.Within M K) (terms : M + N < 2 ^ 64) (indices : K + N + 1 < 2 ^ 64)
    (machine : s.Machine event) (bounded : s.Bounded M K N event) :
    ∀ n ∈ s.sums event, n < 2 ^ 64 := by
  have term := within.term
  have last := within.lastLogIndex
  have covered := within.snapshot
  cases event with
  | requestVote _ _ | follow _ _ | restart _ _ _ _ => simp [State.sums]
  | appendEntries clock args =>
    have sent := machine.2.2.1
    simp only [State.sums, List.forall_mem_cons]
    refine ⟨by omega, ?_⟩
    split_ifs
    · simp only [List.mem_singleton, forall_eq]
      omega
    · simp
  | timeout clock =>
    simp only [Bounded] at bounded
    simp only [State.sums, List.mem_singleton, forall_eq]
    omega
  | win =>
    simp only [Bounded] at bounded
    simp only [State.sums, List.forall_mem_cons, List.not_mem_nil, false_imp_iff, implies_true, and_true]
    omega

omit [WalOps W] [Bincode] in
theorem entries_of (within : s.Within M K) {core : RaftCore W} (same : SameLog s.core core) :
    ∀ e ∈ core.entries, e.index ≤ K + s.raised := by
  rw [same.entries]
  exact within.entries

/-- Every allowed step keeps the bounds, and the disk does not fall back. -/
theorem step (within : s.Within M K) (bounded : s.Bounded M K N event)
    (stepped : s.exactStep event = some s') : s'.Within M K ∧ s.persisted ≤ s'.persisted := by
  cases event with
  | requestVote clock args =>
    cases stepped
    have same := handleRequestVote_sameLog clock args s.core
    exact within.climb (handleRequestVote_climbs clock args s.core) le_rfl
      (Nat.le_add_right_of_le bounded) (within.entries_of same) same.snapshot
  | appendEntries clock args =>
    cases stepped
    have small : ∀ e ∈ args.entries, e.index ≤ K + s.raised := fun e member =>
      Nat.le_add_right_of_le (bounded.2 e member)
    exact within.climb (handleAppendEntries_climbs clock args s.core) le_rfl
      (Nat.le_add_right_of_le bounded.1)
      (handleAppendEntries_capped small clock s.core within.entries)
      (handleAppendEntries_snapshot clock args s.core)
  | timeout clock =>
    cases stepped
    have same := becomeCandidate_sameLog clock s.core
    exact within.climb (becomeCandidate_climbs clock s.core) (Nat.le_succ _)
      (Nat.succ_le_succ within.term)
      (fun e member => Nat.le_succ_of_le (within.entries_of same e member)) same.snapshot
  | win =>
    cases stepped
    obtain ⟨hard, file, snapshot, entries⟩ := winElection_entries s.core
    have small : ∀ e ∈ (RaftCore.winElection s.core).2.entries, e.index ≤ K + (s.raised + 1) := by
      have last := within.lastLogIndex
      intro e member
      rcases entries with same | ⟨added, index, grown⟩
      · rw [same] at member
        exact Nat.le_succ_of_le (within.entries e member)
      · rw [grown] at member
        rcases List.mem_append.mp member with old | new
        · exact Nat.le_succ_of_le (within.entries e old)
        · rw [List.mem_singleton.mp new]
          omega
    exact within.climb (.same hard file : Climbs 0 _ _) (Nat.le_succ _) (Nat.zero_le _) small snapshot
  | follow term leader =>
    cases stepped
    have same := becomeFollower_sameLog term leader s.core
    exact within.climb (becomeFollower_climbs term leader s.core) le_rfl
      (Nat.le_add_right_of_le bounded) (within.entries_of same) same.snapshot
  | restart clock cfg snapshot log =>
    simp only [exactStep, stepWith] at stepped
    split at stepped
    · rename_i core restored
      cases stepped
      obtain ⟨covered, small⟩ := bounded
      rw [restored] at small
      obtain ⟨_, _, _, _, _, rfl⟩ := restore_ok restored
      exact ⟨⟨within.saved.trans within.term, le_rfl, small, covered⟩, le_rfl⟩
    · cases stepped

end Step
end Within

section Step
variable [WalOps W] [Bincode]

/-- A run with bounded terms and indices and a bounded number of campaigns. -/
def Allowed (M K N : Nat) (s : State W) (event : Event W) : Prop :=
  s.Machine event ∧ s.Bounded M K N event

instance (s : State W) (event : Event W) : Decidable (s.Allowed M K N event) :=
  inferInstanceAs (Decidable (_ ∧ _))

/-- As long as terms and indices that come in leave room for the campaigns, no addition wraps
around, a release build does what is done with unbounded integers, and the term on disk does
not decrease. -/
theorem bounded_never_wraps {clock : Clock} {cfg : Config} {hardPath : HardFile}
    {snapshot : SnapshotMeta} {log : W} {core : RaftCore W}
    (started : restore clock cfg hardPath snapshot log = .ok core)
    (terms : M + N < 2 ^ 64) (indices : K + N + 1 < 2 ^ 64)
    (term : hardPath.load.currentTerm ≤ M) (entries : ∀ e ∈ core.entries, e.index ≤ K)
    (covered : snapshot.lastIncludedIndex ≤ K) (run : Reaches step (Allowed M K N) ⟨core, 0⟩ s)
    (allowed : s.Allowed M K N event) :
    (∀ n ∈ s.sums event, n < 2 ^ 64) ∧ s.step event = s.exactStep event ∧
      ∀ s', s.step event = some s' → s.persisted ≤ s'.persisted := by
  have exact {t : State W} {event : Event W} (within : t.Within M K) (allowed : t.Allowed M K N event) :
      (∀ n ∈ t.sums event, n < 2 ^ 64) ∧ t.step event = t.exactStep event := by
    have fits := within.sums terms indices allowed.1 allowed.2
    exact ⟨fits, step_eq fits allowed.1⟩
  have initial : Within M K ⟨core, 0⟩ := by
    obtain ⟨_, _, _, _, _, rfl⟩ := restore_ok started
    exact ⟨term, le_rfl, entries, covered⟩
  have within : s.Within M K := run.invariant initial fun before allowed stepped =>
    (before.step allowed.2 ((exact before allowed).2 ▸ stepped)).1
  obtain ⟨fits, same⟩ := exact within allowed
  exact ⟨fits, same, fun s' stepped => (within.step allowed.2 (same ▸ stepped)).2⟩

end Step

/-- One of three nodes. -/
def oneOfThree : Config := (Config.new 1).withPeers [⟨2, ""⟩, ⟨3, ""⟩]

/-- The node votes in term 5, restarts, stores an entry, and campaigns for term 6. -/
theorem bounded_never_wraps_vote : ∃ (core : RaftCore FlatLog) (s s' : State FlatLog),
    restore ⟨0, 0⟩ oneOfThree HardFile.absent default FlatLog.empty = .ok core ∧
      Reaches step (Allowed 5 1 1) ⟨core, 0⟩ s ∧ s.persisted = 5 ∧ s.core.lastLogIndex = 1 ∧
      s.step (.timeout ⟨0, 0⟩) = some s' ∧ s'.persisted = 6 ∧
      s.step (.timeout ⟨0, 0⟩) = s.exactStep (.timeout ⟨0, 0⟩) := by
  have ran : (((restore ⟨0, 0⟩ oneOfThree HardFile.absent default FlatLog.empty).toOption.map
      fun core => State.mk core 0).bind fun s => execute step (Allowed 5 1 1) s
        [.requestVote ⟨0, 0⟩ ⟨5, 2, 0, 0⟩, .restart ⟨0, 0⟩ oneOfThree default FlatLog.empty,
          .appendEntries ⟨0, 0⟩ ⟨5, 2, 0, 0, [⟨5, 1, .noop⟩], 0⟩]).any (fun s =>
        decide (s.persisted = 5 ∧ s.core.lastLogIndex = 1 ∧ s.Allowed 5 1 1 (.timeout ⟨0, 0⟩)) &&
          (s.step (.timeout ⟨0, 0⟩)).any fun s' => decide (s'.persisted = 6)) = true := by
    decide +kernel
  have empty : (restore ⟨0, 0⟩ oneOfThree HardFile.absent default FlatLog.empty).toOption.any
      (fun core => decide (∀ e ∈ core.entries, e.index ≤ 1)) = true := by
    decide +kernel
  obtain ⟨start, s, opened, reached, shown⟩ := execute_shows_from ran
  obtain ⟨core, found, rfl⟩ := Option.map_eq_some_iff.mp opened
  obtain ⟨shown, later⟩ := Bool.and_eq_true_iff.mp shown
  obtain ⟨saved, last, allowed⟩ := of_decide_eq_true shown
  obtain ⟨s', stepped, raised⟩ := (Option.any_eq_true _ _).mp later
  have started := Except.of_toOption_some found
  rw [found, Option.any_some] at empty
  obtain ⟨_, same, _⟩ := bounded_never_wraps started (by decide) (by decide) (by decide)
    (of_decide_eq_true empty) (by decide) reached allowed
  exact ⟨core, s, s', started, reached, saved, last, stepped, of_decide_eq_true raised, same⟩

/-- A vote request of the last term, then a campaign: the term on disk is 0. Or an entry with the
last index, then a campaign that is won: the entry of the leader has index 0. -/
theorem terms_and_indices_wrap : ∃ (core : RaftCore FlatLog) (s s' t t' : State FlatLog),
    restore ⟨0, 0⟩ oneOfThree HardFile.absent default FlatLog.empty = .ok core ∧
      Reaches step Machine ⟨core, 0⟩ s ∧ s.persisted = 2 ^ 64 - 1 ∧
      s.step (.timeout ⟨0, 0⟩) = some s' ∧ s'.persisted = 0 ∧
      Reaches step Machine ⟨core, 0⟩ t ∧ t.core.lastLogIndex = 2 ^ 64 - 1 ∧
      t.step .win = some t' ∧ t'.core.lastLogIndex = 0 := by
  have voted : (((restore ⟨0, 0⟩ oneOfThree HardFile.absent default FlatLog.empty).toOption.map
      fun core => State.mk core 0).bind fun s => execute step Machine s
        [.requestVote ⟨0, 0⟩ ⟨2 ^ 64 - 1, 2, 0, 0⟩]).any (fun s =>
        decide (s.persisted = 2 ^ 64 - 1) &&
          (s.step (.timeout ⟨0, 0⟩)).any fun s' => decide (s'.persisted = 0)) = true := by
    decide +kernel
  have stored : (((restore ⟨0, 0⟩ oneOfThree HardFile.absent default FlatLog.empty).toOption.map
      fun core => State.mk core 0).bind fun s => execute step Machine s
        [.appendEntries ⟨0, 0⟩ ⟨1, 2, 0, 0, [⟨1, 2 ^ 64 - 1, .noop⟩], 0⟩, .timeout ⟨0, 0⟩]).any (fun t =>
        decide (t.core.lastLogIndex = 2 ^ 64 - 1) &&
          (t.step .win).any fun t' => decide (t'.core.lastLogIndex = 0)) = true := by
    decide +kernel
  obtain ⟨start, s, opened, reached, shown⟩ := execute_shows_from voted
  obtain ⟨core, found, rfl⟩ := Option.map_eq_some_iff.mp opened
  rw [found, Option.map_some] at stored
  obtain ⟨t, reached', shown'⟩ := execute_shows stored
  obtain ⟨last, later⟩ := Bool.and_eq_true_iff.mp shown
  obtain ⟨s', stepped, wrapped⟩ := (Option.any_eq_true _ _).mp later
  obtain ⟨last', later'⟩ := Bool.and_eq_true_iff.mp shown'
  obtain ⟨t', stepped', wrapped'⟩ := (Option.any_eq_true _ _).mp later'
  exact ⟨core, s, s', t, t', Except.of_toOption_some found, reached, of_decide_eq_true last, stepped,
    of_decide_eq_true wrapped, reached', of_decide_eq_true last', stepped', of_decide_eq_true wrapped'⟩

end State
end Wrapping
end WalKv
