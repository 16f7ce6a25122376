import WalKv.Raft.Vote

/-! What a failed persist leaves behind. The term in memory is raised before it is
written and is not taken back, so a node may lead in a term that it never won, and may
answer with a term that its disk does not know. -/
namespace WalKv

/-- The next persist fails. -/
def HardFile.FailsNext (file : HardFile) : Prop :=
  file.outcomes.head? = some .errOld ∨ file.outcomes.head? = some .errNew

instance (file : HardFile) : Decidable file.FailsNext := inferInstanceAs (Decidable (_ ∨ _))

namespace RaftCore
variable {W : Type} {core core' : RaftCore W}

theorem persistHard_cases (core : RaftCore W) :
    core.hardPath.FailsNext ∧ (∃ stop file,
        persistHard core = (.error stop, { core with hardPath := file })) ∨
      ¬ core.hardPath.FailsNext ∧ ∃ file,
        persistHard core = (.ok (), { core with hardPath := file }) ∧ file.load = core.hard := by
  simp only [persistHard, Fallible.part_run, HardFile.persist, HardFile.FailsNext]
  rcases core.hardPath.outcomes with _ | ⟨_ | _ | _, rest⟩
  · exact .inr ⟨by simp, _, rfl, rfl⟩
  · exact .inr ⟨by simp, _, rfl, rfl⟩
  · exact .inl ⟨by simp, _, _, rfl⟩
  · exact .inl ⟨by simp, _, _, rfl⟩

theorem becomeFollower_newer {term : Nat} (newer : core.hard.currentTerm < term)
    (leader : Option Nat) :
    core.hardPath.FailsNext ∧ (∃ stop file, becomeFollower term leader core =
        (.error stop, { core with hard := ⟨term, none⟩, hardPath := file })) ∨
      ¬ core.hardPath.FailsNext ∧ ∃ file, becomeFollower term leader core =
        (.ok (), { core with
          hard := ⟨term, none⟩, hardPath := file, role := .follower, leaderId := leader
          lease := core.lease.invalidate }) ∧ file.load = ⟨term, none⟩ := by
  have begun : becomeFollower term leader core = (persistHard >>= fun _ => Fallible.modify fun core =>
      { core with role := .follower, leaderId := leader, lease := core.lease.invalidate })
      { core with hard := ⟨term, none⟩ } := by
    rw [becomeFollower, Fallible.bind_ok (Fallible.get_run core)]
    simp only [Fallible.when, if_pos newer, Fallible.bind_assoc, Fallible.modify_bind]
  rcases persistHard_cases { core with hard := ⟨term, none⟩ } with
    ⟨fails, stop, file, ran⟩ | ⟨works, file, ran, loaded⟩
  · exact .inl ⟨fails, stop, file, by rw [begun, Fallible.bind_error ran]⟩
  · exact .inr ⟨works, file, by rw [begun, Fallible.bind_ok ran]; rfl, loaded⟩

/-- The role stays as it was. -/
def SameRole (core core' : RaftCore W) : Prop := core'.role = core.role

theorem SameRole.refl (core : RaftCore W) : SameRole core core := rfl

theorem SameRole.trans {core'' : RaftCore W} (first : SameRole core core')
    (second : SameRole core' core'') : SameRole core core'' :=
  Eq.trans second first

theorem resetElectionTimer_sameRole (clock : Clock) :
    Fallible.Keeps SameRole (resetElectionTimer clock : Method W Unit) := by
  intro core
  obtain ⟨deadline, same⟩ := resetElectionTimer_deadline clock core
  rw [same]
  rfl

/-- A call in which a node steps down: directly, or because a request comes in. -/
inductive StepDown where
  | direct (term : Nat) (leader : Option Nat)
  | requestVote (clock : Clock) (args : RequestVoteArgs)
  | appendEntries (clock : Clock) (args : AppendEntriesArgs)

def StepDown.term : StepDown → Nat
  | .direct term _ => term
  | .requestVote _ args => args.term
  | .appendEntries _ args => args.term

section Log
variable [WalOps W] [Bincode]

/-- How the call ends, whatever it replies, and the node it leaves. -/
def StepDown.run (call : StepDown) (core : RaftCore W) : Except Stop Unit × RaftCore W :=
  match call with
  | .direct term leader => becomeFollower term leader core
  | .requestVote clock args => (handleRequestVote clock args >>= fun _ => pure ()) core
  | .appendEntries clock args => (handleAppendEntries clock args >>= fun _ => pure ()) core

omit [WalOps W] [Bincode] in
theorem handleRequestVote_newer (clock : Clock) {args : RequestVoteArgs}
    (newer : core.hard.currentTerm < args.term) :
    ∃ rest : Method W RequestVoteReply, Fallible.Keeps SameRole rest ∧
      handleRequestVote clock args core = (becomeFollower args.term none >>= fun _ => rest) core := by
  refine ⟨_, ?_, by
    rw [handleRequestVote, Fallible.bind_ok (Fallible.get_run core), if_neg (by omega),
      Fallible.when, if_pos newer]⟩
  refine .bind SameRole.trans (.get SameRole.refl) fun seen => ?_
  refine .bind SameRole.trans ?_ fun _ =>
    .bind SameRole.trans (.get SameRole.refl) fun _ => .pure SameRole.refl _
  rw [Fallible.when]
  split_ifs
  · refine .bind SameRole.trans (fun _ => rfl) fun _ => ?_
    exact .bind SameRole.trans (fun _ => rfl) fun _ => resetElectionTimer_sameRole clock
  · exact .pure SameRole.refl ()

theorem matchAndStore_sameRole (args : AppendEntriesArgs) :
    Fallible.Keeps SameRole (matchAndStore args : Method W AppendEntriesReply) :=
  fun core => congrArg Ballot.role (matchAndStore_side args core).ballot

theorem handleAppendEntries_newer (clock : Clock) {args : AppendEntriesArgs}
    (newer : core.hard.currentTerm < args.term) :
    ∃ rest : Method W AppendEntriesReply, Fallible.Keeps SameRole rest ∧
      handleAppendEntries clock args core =
        (becomeFollower args.term (some args.leaderId) >>= fun _ => rest) core := by
  refine ⟨resetElectionTimer clock >>= fun _ => matchAndStore args,
    .bind SameRole.trans (resetElectionTimer_sameRole clock) fun _ => matchAndStore_sameRole args, ?_⟩
  rw [handleAppendEntries, Fallible.bind_ok (Fallible.get_run core), if_neg (by omega),
    Fallible.bind_run, recogniseLeader, if_pos newer, Fallible.bind_run]

theorem StepDown.run_newer (call : StepDown) (newer : core.hard.currentTerm < call.term) :
    ∃ leader, ∃ rest : Method W Unit, Fallible.Keeps SameRole rest ∧
      call.run core = (becomeFollower call.term leader >>= fun _ => rest) core := by
  cases call with
  | direct term leader =>
    refine ⟨leader, pure (), .pure SameRole.refl (), ?_⟩
    rw [Fallible.bind_run, run, StepDown.term]
    rcases becomeFollower term leader core with ⟨_ | _, t⟩ <;> rfl
  | requestVote clock args =>
    obtain ⟨rest, keeps, same⟩ := handleRequestVote_newer clock newer
    refine ⟨none, rest >>= fun _ => pure (), .bind SameRole.trans keeps fun _ => .pure SameRole.refl (), ?_⟩
    rw [run, ← Fallible.bind_assoc, Fallible.bind_run, same, ← Fallible.bind_run]
    rfl
  | appendEntries clock args =>
    obtain ⟨rest, keeps, same⟩ := handleAppendEntries_newer clock newer
    refine ⟨some args.leaderId, rest >>= fun _ => pure (),
      .bind SameRole.trans keeps fun _ => .pure SameRole.refl (), ?_⟩
    rw [run, ← Fallible.bind_assoc, Fallible.bind_run, same, ← Fallible.bind_run]
    rfl

/-- A leader acts in the term it won and in no other: it is in that term, stamps what it
appends with it, and sends requests of it. `build_append_entries` is meant as a leader calls it. -/
structure ActsOnlyIn (won : Nat) (core : RaftCore W) : Prop where
  leads : core.role = .leader → core.hard.currentTerm = won
  appends : ∀ command entry core', appendCommand command core = (.ok entry, core') → entry.term = won
  builds : ∀ peer, core.role = .leader → (core.buildAppendEntries peer).term = won

theorem appendCommand_ok {command : Command} {entry : LogEntry}
    (appended : appendCommand command core = (.ok entry, core')) :
    core.role = .leader ∧ entry.term = core.hard.currentTerm := by
  rw [appendCommand, Fallible.bind_ok (Fallible.get_run core)] at appended
  split_ifs at appended with other
  · cases appended
  · obtain ⟨_, _, _, appended⟩ := Fallible.of_bind_ok appended
    obtain ⟨_, _, _, appended⟩ := Fallible.of_bind_ok appended
    obtain ⟨_, _, _, ended⟩ := Fallible.of_bind_ok appended
    cases ended
    exact ⟨not_not.mp other, rfl⟩

theorem ActsOnlyIn.of_leads {won : Nat} (leads : core.role = .leader → core.hard.currentTerm = won) :
    core.ActsOnlyIn won := by
  refine ⟨leads, fun command entry core' appended => ?_, fun peer leading => leads leading⟩
  obtain ⟨leading, stamp⟩ := appendCommand_ok appended
  exact stamp.trans (leads leading)

/-- A step down, failed or not, is safe exactly if the node did not lead or its new term was
written: when the write fails a leader goes on, in a term that it has not won. -/
theorem stepDown_safe_iff (call : StepDown) (newer : core.hard.currentTerm < call.term) {won : Nat}
    (earlier : won ≤ core.hard.currentTerm) :
    (call.run core).2.ActsOnlyIn won ↔ core.role ≠ .leader ∨ ¬ core.hardPath.FailsNext := by
  obtain ⟨leader, rest, keeps, ran⟩ := call.run_newer newer
  rcases becomeFollower_newer newer leader with
    ⟨fails, stop, file, adopted⟩ | ⟨works, file, adopted, _⟩
  · rw [ran, Fallible.bind_error adopted]
    simp only [fails, not_true_eq_false, or_false]
    constructor
    · intro acts leading
      have same : call.term = won := acts.leads leading
      omega
    · intro other
      exact .of_leads fun leading => absurd leading other
  · rw [ran, Fallible.bind_ok adopted]
    simp only [works, not_false_eq_true, or_true, iff_true]
    refine .of_leads fun leading => ?_
    rw [keeps _] at leading
    cases leading

end Log

/-- The leader of term 1, with these outcomes of its next persists. -/
def leadingWith (outcomes : List PersistOutcome) : RaftCore FlatLog :=
  { assemble ⟨0, 0⟩ ((Config.new 1).withPeers [⟨2, ""⟩, ⟨3, ""⟩]) ⟨some ⟨1, some 1⟩, outcomes⟩ default
      FlatLog.empty [] with role := .leader }

/-- The new term is written, and the vote that follows is not: the call fails, but the node
has stepped down. -/
theorem stepDown_safe_iff_unsaved_vote :
    let call := StepDown.requestVote ⟨0, 0⟩ ⟨2, 2, 0, 0⟩
    (call.run (leadingWith [.ok, .errOld])).1.toOption = none ∧
      (call.run (leadingWith [.ok, .errOld])).2.ActsOnlyIn 1 :=
  ⟨by decide +kernel, (stepDown_safe_iff (.requestVote ⟨0, 0⟩ ⟨2, 2, 0, 0⟩) (by decide)
    (by decide)).mpr (.inr (by decide))⟩

/-- The call fails at its persist and leaves a leader of term 2 that appends and sends in that
term. -/
def StepDown.Usurps (call : StepDown) : Prop :=
  let ended := call.run (leadingWith [.errOld])
  ended.1.toOption = none ∧ ¬ ended.2.ActsOnlyIn 1 ∧
    (appendCommand .noop ended.2).1.toOption = some ⟨2, 1, .noop⟩ ∧
    (ended.2.buildAppendEntries 2).term = 2

/-- This is so on each way to step down. -/
theorem leader_of_unwon_term : StepDown.Usurps (.direct 2 none) ∧
    StepDown.Usurps (.requestVote ⟨0, 0⟩ ⟨2, 2, 0, 0⟩) ∧
    StepDown.Usurps (.appendEntries ⟨0, 0⟩ ⟨2, 2, 0, 0, [], 0⟩) := by
  have acts {core : RaftCore FlatLog} (leading : core.role = .leader)
      (raised : core.hard.currentTerm = 2) : ¬ core.ActsOnlyIn 1 := by
    intro acts
    have same := acts.leads leading
    omega
  refine ⟨?_, ?_, ?_⟩
  all_goals
    exact ⟨by decide +kernel, acts (by decide +kernel) (by decide +kernel), by decide +kernel,
      by decide +kernel⟩

/-- The term in memory is on disk. -/
def Durable (core : RaftCore W) : Prop :=
  core.hard.currentTerm ≤ core.hardPath.load.currentTerm

instance : Decidable core.Durable := inferInstanceAs (Decidable (_ ≤ _))

theorem Durable.congr_iff (hard : core'.hard = core.hard) (file : core'.hardPath = core.hardPath) :
    core'.Durable ↔ core.Durable := by
  rw [Durable, Durable, hard, file]

theorem resetElectionTimer_durable {clock : Clock} {a : Unit}
    (reset : resetElectionTimer clock core = (.ok a, core')) : core'.Durable ↔ core.Durable := by
  have same := resetElectionTimer_ok reset
  exact Durable.congr_iff (congrArg Ballot.hard same) (congrArg Ballot.hardPath same)

theorem becomeFollower_adopted {term : Nat} {leader : Option Nat} {a : Unit}
    (newer : core.hard.currentTerm < term)
    (followed : becomeFollower term leader core = (.ok a, core')) :
    core'.hard.currentTerm = term ∧ core'.Durable := by
  rcases becomeFollower_newer newer leader with
    ⟨_, stop, file, stopped⟩ | ⟨_, file, adopted, loaded⟩
  · rw [stopped] at followed
    cases followed
  · rw [adopted] at followed
    cases followed
    refine ⟨rfl, ?_⟩
    rw [Durable, loaded]

theorem handleRequestVote_durable {clock : Clock} {args : RequestVoteArgs} {reply : RequestVoteReply}
    (answered : handleRequestVote clock args core = (.ok reply, core')) :
    reply.term = core'.hard.currentTerm ∧ (core'.Durable ↔ core.Durable ∨
      core.hard.currentTerm < args.term ∨ args.term = core.hard.currentTerm ∧ core.grants args) := by
  obtain ⟨_, _, ⟨⟩, answered⟩ := Fallible.of_bind_ok answered
  split_ifs at answered with stale
  · cases answered
    refine ⟨rfl, (or_iff_left ?_).symm⟩
    omega
  · obtain ⟨_, seen, observed, answered⟩ := Fallible.of_bind_ok answered
    obtain ⟨_, _, ⟨⟩, answered⟩ := Fallible.of_bind_ok answered
    obtain ⟨_, voted, ran, ended⟩ := Fallible.of_bind_ok answered
    cases ended
    refine ⟨rfl, ?_⟩
    have seen_cases : core.hard.currentTerm < args.term ∧ seen.Durable ∨
        args.term = core.hard.currentTerm ∧ seen = core := by
      rw [Fallible.when_run] at observed
      split_ifs at observed with newer
      · exact .inl ⟨newer, (becomeFollower_adopted newer observed).2⟩
      · cases observed
        exact .inr ⟨by omega, rfl⟩
    rw [Fallible.when_run] at ran
    split_ifs at ran with granted
    · rw [Fallible.modify_bind] at ran
      obtain ⟨_, written, persisted, reset⟩ := Fallible.of_bind_ok ran
      obtain ⟨same, saved⟩ := persistHard_ok persisted
      have durable : written.Durable := by
        rw [Durable, saved, same]
      refine iff_of_true ((resetElectionTimer_durable reset).mpr durable) (.inr ?_)
      rcases seen_cases with ⟨newer, _⟩ | ⟨current, rfl⟩
      · exact .inl newer
      · exact .inr ⟨current, granted⟩
    · cases ran
      rcases seen_cases with ⟨newer, durable⟩ | ⟨current, rfl⟩
      · exact iff_of_true durable (.inr (.inl newer))
      · refine (or_iff_left ?_).symm
        rintro (newer | ⟨_, grants⟩)
        · omega
        · exact granted grants

section Log
variable [WalOps W] [Bincode]

theorem handleAppendEntries_replied {clock : Clock} {args : AppendEntriesArgs}
    {reply : AppendEntriesReply}
    (answered : handleAppendEntries clock args core = (.ok reply, core')) :
    reply.term = core'.hard.currentTerm ∧
      (reply.success = true → core.hard.currentTerm ≤ args.term) ∧
      (core'.Durable ↔ core.Durable ∨ core.hard.currentTerm < args.term) := by
  obtain ⟨_, _, ⟨⟩, answered⟩ := Fallible.of_bind_ok answered
  split_ifs at answered with stale
  · cases answered
    refine ⟨rfl, nofun, (or_iff_left ?_).symm⟩
    omega
  · obtain ⟨_, seen, recognised, answered⟩ := Fallible.of_bind_ok answered
    obtain ⟨_, armed, reset, answered⟩ := Fallible.of_bind_ok answered
    have side := (matchAndStore_side args armed).ballot
    have replied : ∀ r t, matchAndStore args armed = (.ok r, t) → r.term = t.hard.currentTerm := by
      intro r t ran
      rw [matchAndStore_run] at ran
      split_ifs at ran
      · cases ran
        rfl
      · cases ran
        rfl
      · obtain ⟨_, _, _, ran⟩ := Fallible.of_bind_ok ran
        obtain ⟨_, _, _, ran⟩ := Fallible.of_bind_ok ran
        obtain ⟨_, _, _, ran⟩ := Fallible.of_bind_ok ran
        cases ran
        rfl
    rw [answered] at side
    refine ⟨replied reply core' answered, fun _ => Nat.le_of_not_lt stale, ?_⟩
    have same : core'.Durable ↔ armed.Durable :=
      Durable.congr_iff (congrArg Ballot.hard side) (congrArg Ballot.hardPath side)
    rw [same, resetElectionTimer_durable reset]
    unfold recogniseLeader at recognised
    split_ifs at recognised with newer
    · exact iff_of_true (becomeFollower_adopted newer recognised).2 (.inr newer)
    · cases recognised
      exact (or_iff_left newer).symm

end Log
end RaftCore

/-- A node and the terms of the replies it has sent. -/
structure Replier (W : Type) where
  core : RaftCore W
  replies : List Nat

namespace Replier
open RaftCore Transition Voter

section Run
variable {W : Type} [WalOps W] [Bincode] {v v' : Replier W}

/-- A call that stops sends no reply, and the node goes on with what it has done. -/
def step (v : Replier W) : Voter.Call W → Option (Replier W)
  | .requestVote clock args =>
    match handleRequestVote clock args v.core with
    | (.ok reply, core) => some { core, replies := reply.term :: v.replies }
    | (.error _, core) => some { v with core }
  | .appendEntries clock args =>
    match handleAppendEntries clock args v.core with
    | (.ok reply, core) => some { core, replies := reply.term :: v.replies }
    | (.error _, core) => some { v with core }
  | .candidate clock => some { v with core := (becomeCandidate clock v.core).2 }
  | .follower term leader => some { v with core := (becomeFollower term leader v.core).2 }
  | .crash clock cfg snapshot log =>
    match restore clock cfg v.core.hardPath snapshot log with
    | .ok core => some { v with core }
    | .error _ => none

omit [WalOps W] [Bincode] in
/-- A request is handled while the term in memory is on disk, or it makes the node write: it
brings a newer term, or it gets the vote in the current one. -/
def Saved (v : Replier W) : Voter.Call W → Prop
  | .requestVote _ args => v.core.Durable ∨ v.core.hard.currentTerm < args.term ∨
      args.term = v.core.hard.currentTerm ∧ v.core.grants args
  | .appendEntries _ args => v.core.Durable ∨ v.core.hard.currentTerm < args.term
  | .candidate _ | .follower .. | .crash .. => True

omit [WalOps W] [Bincode] in
instance (v : Replier W) (call : Voter.Call W) : Decidable (v.Saved call) :=
  match call with
  | .requestVote .. => inferInstanceAs (Decidable (_ ∨ _ ∨ _ ∧ _))
  | .appendEntries .. => inferInstanceAs (Decidable (_ ∨ _))
  | .candidate _ | .follower .. | .crash .. => inferInstanceAs (Decidable True)

/-- Memory and disk have every term that was sent in a reply. -/
structure Remembers (v : Replier W) : Prop where
  memory : ∀ t ∈ v.replies, t ≤ v.core.hard.currentTerm
  disk : ∀ t ∈ v.replies, t ≤ v.core.hardPath.load.currentTerm

namespace Remembers

omit [WalOps W] [Bincode] in
theorem advance (remembers : v.Remembers) {core : RaftCore W} (advances : Advances v.core core) :
    (⟨core, v.replies⟩ : Replier W).Remembers := by
  refine ⟨fun t sent => (remembers.memory t sent).trans advances.memory.term, fun t sent => ?_⟩
  show t ≤ core.hardPath.load.currentTerm
  rcases advances.disk with same | beyond
  · rw [same]
    exact remembers.disk t sent
  · exact (remembers.memory t sent).trans beyond.term

omit [WalOps W] [Bincode] in
theorem send (remembers : v.Remembers) {term : Nat} (current : term = v.core.hard.currentTerm)
    (durable : v.core.Durable) : (⟨v.core, term :: v.replies⟩ : Replier W).Remembers := by
  constructor
  · intro t sent
    rcases List.mem_cons.mp sent with rfl | old
    · exact current.le
    · exact remembers.memory t old
  · intro t sent
    rcases List.mem_cons.mp sent with rfl | old
    · exact current.le.trans durable
    · exact remembers.disk t old

theorem step (remembers : v.Remembers) {call : Voter.Call W} (saved : v.Saved call)
    (stepped : v.step call = some v') : v'.Remembers := by
  cases call with
  | requestVote clock args =>
    have advanced := remembers.advance (handleRequestVote_advances clock args v.core)
    simp only [Replier.step] at stepped
    rcases ran : handleRequestVote clock args v.core with ⟨stop | reply, core⟩ <;>
      rw [ran] at stepped advanced <;> cases stepped
    · exact advanced
    · obtain ⟨current, durable⟩ := handleRequestVote_durable ran
      exact advanced.send current (durable.mpr saved)
  | appendEntries clock args =>
    have advanced := remembers.advance (handleAppendEntries_advances clock args v.core)
    simp only [Replier.step] at stepped
    rcases ran : handleAppendEntries clock args v.core with ⟨stop | reply, core⟩ <;>
      rw [ran] at stepped advanced <;> cases stepped
    · exact advanced
    · obtain ⟨current, _, durable⟩ := handleAppendEntries_replied ran
      exact advanced.send current (durable.mpr saved)
  | candidate clock =>
    cases stepped
    exact remembers.advance (becomeCandidate_advances clock v.core)
  | follower term leader =>
    cases stepped
    exact remembers.advance (becomeFollower_advances term leader v.core)
  | crash clock cfg snapshot log =>
    simp only [Replier.step] at stepped
    rcases restored : restore clock cfg v.core.hardPath snapshot log with stop | core <;>
      rw [restored] at stepped <;> cases stepped
    obtain ⟨_, _, _, _, _, rfl⟩ := restore_ok restored
    exact ⟨remembers.disk, remembers.disk⟩

end Remembers

/-- In a run that handles no request of the current term while that term is missing on disk,
every term that was sent is on disk; no later reply has a lower one, and no leader of a lower
one is followed. -/
theorem replies_durable {core : RaftCore W} (run : Reaches step Saved ⟨core, []⟩ v) :
    (∀ t ∈ v.replies, t ≤ v.core.hardPath.load.currentTerm) ∧
    (∀ clock args reply core', handleRequestVote clock args v.core = (.ok reply, core') →
      ∀ t ∈ v.replies, t ≤ reply.term) ∧
    ∀ clock args reply core', handleAppendEntries clock args v.core = (.ok reply, core') →
      ∀ t ∈ v.replies, t ≤ reply.term ∧ (reply.success = true → t ≤ args.term) := by
  have start : (⟨core, []⟩ : Replier W).Remembers := ⟨by simp, by simp⟩
  have remembers := run.invariant start fun before saved stepped => before.step saved stepped
  refine ⟨remembers.disk, ?_, ?_⟩
  · intro clock args reply core' answered t sent
    have advances := handleRequestVote_advances clock args v.core
    rw [answered] at advances
    rw [(handleRequestVote_durable answered).1]
    exact (remembers.memory t sent).trans advances.memory.term
  · intro clock args reply core' answered t sent
    have advances := handleAppendEntries_advances clock args v.core
    rw [answered] at advances
    obtain ⟨current, followed, _⟩ := handleAppendEntries_replied answered
    have known := remembers.memory t sent
    refine ⟨?_, fun success => known.trans (followed success)⟩
    rw [current]
    exact known.trans advances.memory.term

end Run

/-- A new node whose first persist fails. -/
def unlucky : RaftCore FlatLog :=
  assemble ⟨0, 0⟩ ((Config.new 1).withPeers [⟨2, ""⟩, ⟨3, ""⟩]) ⟨none, [.errOld]⟩ default FlatLog.empty []

def restarted : Voter.Call FlatLog :=
  .crash ⟨0, 0⟩ ((Config.new 1).withPeers [⟨2, ""⟩, ⟨3, ""⟩]) default FlatLog.empty

/-- Term 2 is not written at first. The candidate asks again and gets its vote, and with it
the term is on disk; it is still there after a crash. -/
theorem replies_durable_retried : ∃ v, Reaches step Saved ⟨unlucky, []⟩ v ∧ v.replies = [2, 2] ∧
    ∀ t ∈ v.replies, t ≤ v.core.hardPath.load.currentTerm := by
  have ran : ((execute step Saved ⟨unlucky, []⟩ [.requestVote ⟨0, 0⟩ ⟨2, 2, 0, 0⟩,
      .requestVote ⟨0, 0⟩ ⟨2, 2, 0, 0⟩, restarted, .appendEntries ⟨0, 0⟩ ⟨1, 3, 0, 0, [], 0⟩]).any
      fun v => decide (v.replies = [2, 2])) = true := by
    decide +kernel
  obtain ⟨v, reached, shown⟩ := execute_shows ran
  exact ⟨v, reached, of_decide_eq_true shown, (replies_durable reached).1⟩

/-- Term 2 is not written, and a request of the same term is answered with it. After a crash
the node follows a leader of term 1. -/
theorem replied_term_forgotten : ∃ v, Reaches step (fun _ _ => True) ⟨unlucky, []⟩ v ∧
    v.replies = [1, 2] ∧ v.core.leaderId = some 3 ∧
    ¬ ∀ t ∈ v.replies, t ≤ v.core.hardPath.load.currentTerm := by
  have ran : ((execute step (fun _ _ => True) ⟨unlucky, []⟩ [.requestVote ⟨0, 0⟩ ⟨2, 2, 0, 0⟩,
      .appendEntries ⟨0, 0⟩ ⟨2, 2, 0, 0, [], 0⟩, restarted,
      .appendEntries ⟨0, 0⟩ ⟨1, 3, 0, 0, [], 0⟩]).any
      fun v => decide (v.replies = [1, 2] ∧ v.core.hardPath.load.currentTerm = 1 ∧
        v.core.leaderId = some 3)) = true := by
    decide +kernel
  obtain ⟨v, reached, shown⟩ := execute_shows ran
  obtain ⟨replies, disk, followed⟩ := of_decide_eq_true shown
  refine ⟨v, reached, replies, followed, fun durable => ?_⟩
  have two := durable 2 (by rw [replies]; simp)
  omega

end Replier
end WalKv
