import WalKv.Raft.Running

/-! The part of a core that elections look at, and how each method moves it. A
vote is never taken back within its term, on disk as little as in memory, even
when a call stops in the middle. -/
namespace WalKv

/-- The term rises, or it stays and a vote already given stays. -/
def HardState.Le (old new : HardState) : Prop :=
  old.currentTerm < new.currentTerm ∨
    old.currentTerm = new.currentTerm ∧ (old.votedFor = none ∨ old.votedFor = new.votedFor)

namespace HardState.Le
variable {a b c : HardState}

theorem refl (a : HardState) : a.Le a := Or.inr ⟨rfl, Or.inr rfl⟩

theorem term (grown : a.Le b) : a.currentTerm ≤ b.currentTerm := by
  rcases grown with newer | ⟨same, _⟩ <;> omega

theorem trans (first : a.Le b) (second : b.Le c) : a.Le c := by
  rcases first with newer | ⟨same, vote⟩
  · exact Or.inl (Nat.lt_of_lt_of_le newer second.term)
  · rcases second with newer | ⟨same', vote'⟩
    · exact Or.inl (same ▸ newer)
    · refine Or.inr ⟨same.trans same', ?_⟩
      rcases vote with free | kept
      · exact Or.inl free
      · exact kept ▸ vote'

/-- A vote stays on record while its term lasts. -/
theorem vote (grown : a.Le b) (cast : u < a.currentTerm ∨ u = a.currentTerm ∧ a.votedFor = some x) :
    u < b.currentTerm ∨ u = b.currentTerm ∧ b.votedFor = some x := by
  rcases grown with newer | ⟨same, kept⟩
  · exact Or.inl (by omega)
  · rw [← same]
    refine cast.imp_right fun ⟨now, given⟩ => ⟨now, ?_⟩
    rcases kept with free | kept
    · simp [free] at given
    · exact kept ▸ given

end HardState.Le

/-- Who the node is, its hard state in memory and on disk, and its role. -/
structure Ballot where
  id : Nat
  peers : List Nat
  clusterSize : Nat
  electionTimeout : TimeoutRange
  hard : HardState
  hardPath : HardFile
  role : Role

namespace RaftCore
variable {W : Type} {core core' : RaftCore W} {clock : Clock} {term : Nat} {leader : Option Nat}

def ballot (core : RaftCore W) : Ballot :=
  ⟨core.id, core.peers, core.clusterSize, core.electionTimeout, core.hard, core.hardPath, core.role⟩

theorem Running.congr (running : core.Running) (same : core'.ballot = core.ballot) :
    core'.Running := by
  simp only [ballot, Ballot.mk.injEq] at same
  obtain ⟨_, _, _, timeout, hard, file, _⟩ := same
  exact ⟨file ▸ running.durable, file ▸ hard ▸ running.saved, timeout ▸ running.timed⟩

theorem LogOnly.ballot (only : LogOnly core core') : core'.ballot = core.ballot := by
  rw [only]
  rfl

theorem armed_ballot (clock : Clock) (core : RaftCore W) :
    (core.armed clock).ballot = core.ballot := by
  simp only [armed, ballot]

def SameBallot (core core' : RaftCore W) : Prop := core'.ballot = core.ballot

/-- Nothing but the log and the progress on it differs. -/
def LogSide (core core' : RaftCore W) : Prop :=
  core' = { core with
    log := core'.log, entries := core'.entries, snapshot := core'.snapshot
    commitIndex := core'.commitIndex, lastApplied := core'.lastApplied
    nextIndex := core'.nextIndex, matchIndex := core'.matchIndex }

namespace LogSide

theorem refl (core : RaftCore W) : LogSide core core := rfl

theorem trans {core'' : RaftCore W} (first : LogSide core core') (second : LogSide core' core'') :
    LogSide core core'' := by
  unfold LogSide at *
  rw [second, first]

theorem ballot (side : LogSide core core') : SameBallot core core' := by
  unfold SameBallot
  rw [side]
  rfl

end LogSide

theorem LogOnly.side (only : LogOnly core core') : LogSide core core' := by
  unfold LogSide
  rw [only]

theorem advanceCommitIndex_side (core : RaftCore W) : LogSide core core.advanceCommitIndex := by
  rw [advanceCommitIndex_eq]
  rfl

theorem onAppendEntriesReply_side (peer lastSent : Nat) (reply : AppendEntriesReply)
    (core : RaftCore W) : LogSide core (core.onAppendEntriesReply peer lastSent reply) := by
  obtain ⟨nextIndex, matchIndex, same | same⟩ := onAppendEntriesReply_cases peer lastSent reply core
  · rw [same]
    rfl
  · rw [same]
    refine LogSide.trans ?_ (advanceCommitIndex_side _)
    rfl

theorem takeLoop_side (fuel : Nat) (core : RaftCore W) : LogSide core (takeLoop fuel core).2 := by
  induction fuel generalizing core with
  | zero => rfl
  | succ fuel ih =>
    unfold takeLoop
    split
    · refine LogSide.trans ?_ (ih _)
      rfl
    · rfl

section Log
variable [WalOps W]

theorem compact_side (snapshotMeta : SnapshotMeta) :
    Fallible.Keeps LogSide (compact snapshotMeta : Method W Unit) := by
  refine .bind LogSide.trans (.get LogSide.refl) fun core => ?_
  unfold Fallible.when
  split_ifs
  · refine .bind LogSide.trans (fun _ => rfl) fun _ => ?_
    exact .bind LogSide.trans (fun _ => rfl) fun _ _ => rfl
  · exact .pure LogSide.refl ()

variable [Bincode]

theorem appendCommand_side (command : Command) :
    Fallible.Keeps LogSide (appendCommand command : Method W LogEntry) := by
  refine .bind LogSide.trans (.get LogSide.refl) fun core => ?_
  split_ifs
  · exact fun _ => rfl
  · refine .bind LogSide.trans (.lift LogSide.refl _) fun _ => ?_
    refine .bind LogSide.trans (fun _ => rfl) fun _ => ?_
    exact .bind LogSide.trans (fun _ => rfl) fun _ => .pure LogSide.refl _

theorem matchAndStore_side (args : AppendEntriesArgs) :
    Fallible.Keeps LogSide (matchAndStore args : Method W AppendEntriesReply) := by
  intro core
  rw [matchAndStore_run]
  split_ifs
  · rfl
  · rfl
  · exact (store_only args core).side

end Log

/-- How a call leaves the disk: past the given hard state, and in step with
memory unless the call stopped. -/
def Recorded {α : Type} (start : HardState) (ended : Except Stop α × RaftCore W) : Prop :=
  start.Le ended.2.hardPath.load ∧ ∀ a, ended.1 = .ok a → ended.2.hardPath.load = ended.2.hard

theorem Recorded.bind {α β : Type} {start : HardState} {m : Method W α} {f : α → Method W β}
    (first : Recorded start (m core))
    (second : ∀ a t, m core = (.ok a, t) → start.Le t.hard → t.hardPath.load = t.hard →
      Recorded start (f a t)) : Recorded start ((m >>= f) core) := by
  rw [Fallible.bind_run]
  rcases ran : m core with ⟨stop | a, t⟩
  · rw [ran] at first
    exact ⟨first.1, fun _ impossible => by cases impossible⟩
  · rw [ran] at first
    have saved := first.2 a rfl
    exact second a t ran (saved ▸ first.1) saved

theorem Recorded.unchanged {α : Type} {start : HardState} {ended : Except Stop α × RaftCore W}
    (grown : start.Le core.hard) (saved : core.hardPath.load = core.hard)
    (hard : ended.2.hard = core.hard) (file : ended.2.hardPath = core.hardPath) :
    Recorded start ended :=
  ⟨by rw [file, saved]; exact grown, fun _ _ => by rw [file, hard, saved]⟩

theorem Recorded.persist {start new : HardState} (grown : start.Le core.hardPath.load)
    (newer : start.Le new) : Recorded start (persistHard { core with hard := new }) := by
  simp only [persistHard, Fallible.part_run, Recorded, HardFile.persist]
  split
  all_goals simp_all [HardFile.load]

theorem resetElectionTimer_deadline (clock : Clock) (core : RaftCore W) :
    ∃ deadline, (resetElectionTimer clock core).2 = { core with electionDeadline := deadline } := by
  rcases drawn : genRange (asMillis core.electionTimeout.start)
    (asMillis core.electionTimeout.stop) clock with _ | ms
  · exact ⟨core.electionDeadline, by simp only [resetElectionTimer, drawn]⟩
  · exact ⟨clock.now + fromMillis ms, by simp only [resetElectionTimer, drawn]⟩

/-- A vote that is given replaces no other. -/
theorem granted_le {args : RequestVoteArgs}
    (granted : (core.logOk args && core.freeToVote args) = true) :
    core.hard.Le { core.hard with votedFor := some args.candidateId } := by
  simp only [Bool.and_eq_true, freeToVote, Bool.or_eq_true, decide_eq_true_eq] at granted
  exact Or.inr ⟨rfl, granted.2⟩

section Recorded
variable {start : HardState} (grown : start.Le core.hard) (saved : core.hardPath.load = core.hard)
include grown saved

theorem becomeFollower_recorded : Recorded start (becomeFollower term leader core) := by
  refine Recorded.bind (m := Fallible.get) (.unchanged grown saved rfl rfl) ?_
  rintro _ _ ⟨⟩ grown saved
  refine Recorded.bind ?_ fun _ t _ grown saved => .unchanged grown saved rfl rfl
  rw [Fallible.when_run]
  split_ifs with newer
  · rw [Fallible.modify_bind]
    exact .persist (saved ▸ grown) (grown.trans (Or.inl newer))
  · exact .unchanged grown saved rfl rfl

theorem resetElectionTimer_recorded : Recorded start (resetElectionTimer clock core) := by
  obtain ⟨deadline, same⟩ := resetElectionTimer_deadline clock core
  exact .unchanged grown saved (by rw [same]) (by rw [same])

theorem becomeCandidate_recorded : Recorded start (becomeCandidate clock core) := by
  rw [becomeCandidate, Fallible.modify_bind]
  refine Recorded.bind ?_ fun _ t _ grown saved => ?_
  · have disk : start.Le { core with role := .candidate }.hardPath.load := saved ▸ grown
    exact Recorded.persist disk (grown.trans (Or.inl (Nat.lt_succ_self _)))
  · refine Recorded.bind (m := Fallible.modify _) (.unchanged grown saved rfl rfl)
      fun _ t _ grown saved => ?_
    refine Recorded.bind (resetElectionTimer_recorded grown saved) fun _ t _ grown saved => ?_
    exact .unchanged grown saved rfl rfl

theorem handleRequestVote_recorded (args : RequestVoteArgs) :
    Recorded start (handleRequestVote clock args core) := by
  refine Recorded.bind (m := Fallible.get) (.unchanged grown saved rfl rfl) ?_
  rintro _ _ ⟨⟩ grown saved
  split_ifs with stale
  · exact .unchanged grown saved rfl rfl
  · refine Recorded.bind ?_ fun _ t _ grown saved => ?_
    · rw [Fallible.when_run]
      split_ifs
      · exact becomeFollower_recorded grown saved
      · exact .unchanged grown saved rfl rfl
    refine Recorded.bind (m := Fallible.get) (.unchanged grown saved rfl rfl) ?_
    rintro _ _ ⟨⟩ grown saved
    refine Recorded.bind ?_ fun _ t _ grown saved => .unchanged grown saved rfl rfl
    rw [Fallible.when_run]
    split_ifs with granted
    · have free := granted_le granted
      rw [Fallible.modify_bind]
      refine Recorded.bind (.persist (saved ▸ grown) (grown.trans free))
        fun _ t _ grown saved => resetElectionTimer_recorded grown saved
    · exact .unchanged grown saved rfl rfl

theorem handleAppendEntries_recorded [WalOps W] [Bincode] (args : AppendEntriesArgs) :
    Recorded start (handleAppendEntries clock args core) := by
  refine Recorded.bind (m := Fallible.get) (.unchanged grown saved rfl rfl) ?_
  rintro _ _ ⟨⟩ grown saved
  split_ifs with stale
  · exact .unchanged grown saved rfl rfl
  · refine Recorded.bind ?_ fun _ t _ grown saved => ?_
    · unfold recogniseLeader
      split_ifs
      · exact becomeFollower_recorded grown saved
      · exact .unchanged grown saved rfl rfl
    refine Recorded.bind (resetElectionTimer_recorded grown saved) fun _ t _ grown saved => ?_
    have same := (matchAndStore_side args t).ballot
    exact .unchanged grown saved (congrArg Ballot.hard same) (congrArg Ballot.hardPath same)

end Recorded
end RaftCore
end WalKv
