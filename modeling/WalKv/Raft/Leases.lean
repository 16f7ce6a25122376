import WalKv.Raft.Replication

/-! Leases only matter to local reads. Two cores that differ in nothing but their leases return the
same from every other method and again differ in nothing but their leases. -/
namespace WalKv.RaftCore
variable {W : Type} {core core' : RaftCore W}

/-- The second core is the first one but for its lease. -/
def Releases (core core' : RaftCore W) : Prop := ∃ lease, core' = { core with lease }

theorem Releases.refl (core : RaftCore W) : Releases core core := ⟨core.lease, rfl⟩

theorem Releases.renewLease (same : Releases core core') (now : Nat) :
    Releases core (core'.renewLease now) := by
  obtain ⟨lease, rfl⟩ := same
  unfold RaftCore.renewLease
  split_ifs
  · exact ⟨_, rfl⟩
  · exact ⟨lease, rfl⟩

/-- The method treats two such cores alike. -/
abbrev Unleased {α : Type} (method : Method W α) : Prop := Fallible.Respects Releases method method

/-- An update that leaves the lease alone and does not look at it. -/
theorem unleased_modify {f : RaftCore W → RaftCore W}
    (blind : ∀ core lease, ∃ lease', f { core with lease } = { f core with lease := lease' }) :
    Unleased (Fallible.modify f) := by
  apply Fallible.Respects.modify
  rintro core _ ⟨lease, rfl⟩
  exact blind core lease

theorem unleased_persistHard : Unleased (persistHard : Method W Unit) := by
  rintro core _ ⟨lease, rfl⟩
  exact ⟨rfl, lease, rfl⟩

theorem unleased_onLog {α : Type} (m : Fallible Stop W α) : Unleased (onLog m) := by
  apply Fallible.Respects.part
  · rintro core _ ⟨lease, rfl⟩
    rfl
  · rintro log core _ ⟨lease, rfl⟩
    exact ⟨lease, rfl⟩

theorem unleased_resetElectionTimer (clock : Clock) :
    Unleased (resetElectionTimer clock : Method W Unit) := by
  rintro core _ ⟨lease, rfl⟩
  simp only [resetElectionTimer]
  cases genRange (asMillis core.electionTimeout.start) (asMillis core.electionTimeout.stop) clock with
  | none => exact ⟨rfl, lease, rfl⟩
  | some ms => exact ⟨rfl, lease, rfl⟩

theorem unleased_becomeFollower (term : Nat) (leader : Option Nat) :
    Unleased (becomeFollower term leader : Method W Unit) := by
  apply Fallible.Respects.get_bind
  rintro core _ ⟨lease, rfl⟩
  apply Fallible.Respects.bind
  · apply Fallible.Respects.when Iff.rfl
    apply Fallible.Respects.bind
    · exact unleased_modify fun core lease => ⟨lease, rfl⟩
    · exact fun _ => unleased_persistHard
  · exact fun _ => unleased_modify fun core lease => ⟨lease.invalidate, rfl⟩

theorem unleased_becomeCandidate (clock : Clock) :
    Unleased (becomeCandidate clock : Method W RequestVoteArgs) := by
  apply Fallible.Respects.bind (unleased_modify fun core lease => ⟨lease, rfl⟩)
  intro _
  apply Fallible.Respects.bind unleased_persistHard
  intro _
  apply Fallible.Respects.bind (unleased_modify fun core lease => ⟨lease, rfl⟩)
  intro _
  apply Fallible.Respects.bind (unleased_resetElectionTimer clock)
  intro _
  apply Fallible.Respects.get_bind
  rintro core _ ⟨lease, rfl⟩
  exact Fallible.Respects.pure _

theorem unleased_handleRequestVote (clock : Clock) (args : RequestVoteArgs) :
    Unleased (handleRequestVote clock args : Method W RequestVoteReply) := by
  apply Fallible.Respects.get_bind
  rintro core _ ⟨lease, rfl⟩
  apply Fallible.Respects.ite Iff.rfl
  · exact Fallible.Respects.pure _
  · apply Fallible.Respects.bind (Fallible.Respects.when Iff.rfl (unleased_becomeFollower _ _))
    intro _
    apply Fallible.Respects.get_bind
    rintro core _ ⟨lease, rfl⟩
    apply Fallible.Respects.bind
    · apply Fallible.Respects.when Iff.rfl
      apply Fallible.Respects.bind (unleased_modify fun core lease => ⟨lease, rfl⟩)
      intro _
      exact Fallible.Respects.bind unleased_persistHard fun _ => unleased_resetElectionTimer clock
    · intro _
      apply Fallible.Respects.get_bind
      rintro core _ ⟨lease, rfl⟩
      exact Fallible.Respects.pure _

theorem Releases.becomeLeader (same : Releases core core') :
    Releases core.becomeLeader core'.becomeLeader := by
  obtain ⟨lease, rfl⟩ := same
  exact ⟨lease, rfl⟩

theorem Releases.advanceCommitIndex (same : Releases core core') :
    Releases core.advanceCommitIndex core'.advanceCommitIndex := by
  obtain ⟨lease, rfl⟩ := same
  have same : ({ core with lease } : RaftCore W).sortedMatches[core.quorum - 1]? =
      core.sortedMatches[core.quorum - 1]? := rfl
  unfold RaftCore.advanceCommitIndex
  rw [show ({ core with lease } : RaftCore W).quorum = core.quorum from rfl, same]
  cases core.sortedMatches[core.quorum - 1]? with
  | none => exact ⟨lease, rfl⟩
  | some candidate =>
    simp only
    by_cases moves : core.commitIndex < candidate ∧ core.termAt candidate = some core.hard.currentTerm
    · rw [if_pos moves, if_pos (show core.commitIndex < candidate ∧ ({ core with lease } :
        RaftCore W).termAt candidate = some core.hard.currentTerm from moves)]
      exact ⟨lease, rfl⟩
    · rw [if_neg moves, if_neg (show ¬ (core.commitIndex < candidate ∧ ({ core with lease } :
        RaftCore W).termAt candidate = some core.hard.currentTerm) from moves)]
      exact ⟨lease, rfl⟩

theorem Releases.onAppendEntriesReply (same : Releases core core') (peer lastSent : Nat)
    (reply : AppendEntriesReply) : Releases (core.onAppendEntriesReply peer lastSent reply)
      (core'.onAppendEntriesReply peer lastSent reply) := by
  obtain ⟨lease, rfl⟩ := same
  unfold RaftCore.onAppendEntriesReply
  by_cases leads : core.role ≠ .leader
  · rw [if_pos leads, if_pos (show ({ core with lease } : RaftCore W).role ≠ .leader from leads)]
    exact ⟨lease, rfl⟩
  · rw [if_neg leads, if_neg (show ¬ ({ core with lease } : RaftCore W).role ≠ .leader from leads)]
    split_ifs
    · exact Releases.advanceCommitIndex ⟨lease, rfl⟩
    · exact ⟨lease, rfl⟩
    · exact ⟨lease, rfl⟩

theorem takeLoop_released (fuel : Nat) (core : RaftCore W) (lease : LeaderLease) :
    takeLoop fuel { core with lease } =
      ((takeLoop fuel core).1, { (takeLoop fuel core).2 with lease }) := by
  induction fuel generalizing core with
  | zero => rfl
  | succ fuel ih =>
    have same : ({ core with lease } : RaftCore W).entryAt (core.lastApplied + 1) =
        core.entryAt (core.lastApplied + 1) := rfl
    simp only [takeLoop, same]
    cases core.entryAt (core.lastApplied + 1) with
    | none => rfl
    | some entry => simp only [ih { core with lastApplied := core.lastApplied + 1 }]

theorem Releases.takeCommitted (same : Releases core core') :
    core'.takeCommitted.1 = core.takeCommitted.1 ∧
      Releases core.takeCommitted.2 core'.takeCommitted.2 := by
  obtain ⟨lease, rfl⟩ := same
  have taken : ({ core with lease } : RaftCore W).takeCommitted = _ := takeLoop_released _ core lease
  rw [taken]
  exact ⟨rfl, lease, rfl⟩

section Log
variable [WalOps W]

theorem unleased_compact (snapshotMeta : SnapshotMeta) :
    Unleased (compact snapshotMeta : Method W Unit) := by
  apply Fallible.Respects.get_bind
  rintro core _ ⟨lease, rfl⟩
  apply Fallible.Respects.when Iff.rfl
  apply Fallible.Respects.bind (unleased_modify fun core lease => ⟨lease, rfl⟩)
  intro _
  apply Fallible.Respects.bind (unleased_onLog _)
  exact fun _ => unleased_modify fun core lease => ⟨lease, rfl⟩

theorem unleased_truncateFrom (index : Nat) : Unleased (truncateFrom index : Method W Unit) := by
  apply Fallible.Respects.bind (unleased_modify fun core lease => ⟨lease, rfl⟩)
  exact fun _ => unleased_onLog _

variable [Bincode]

theorem unleased_appendCommand (command : Command) :
    Unleased (appendCommand command : Method W LogEntry) := by
  apply Fallible.Respects.get_bind
  rintro core _ ⟨lease, rfl⟩
  apply Fallible.Respects.ite Iff.rfl (Fallible.Respects.stop _)
  apply Fallible.Respects.bind (Fallible.Respects.lift _)
  intro bytes
  apply Fallible.Respects.bind (unleased_onLog _)
  intro _
  apply Fallible.Respects.bind (unleased_modify fun core lease => ⟨lease, rfl⟩)
  exact fun _ => Fallible.Respects.pure _

theorem unleased_appendReplicated (entry : LogEntry) :
    Unleased (appendReplicated entry : Method W Unit) := by
  apply Fallible.Respects.bind (Fallible.Respects.lift _)
  intro bytes
  apply Fallible.Respects.bind (unleased_onLog _)
  exact fun _ => unleased_modify fun core lease => ⟨lease, rfl⟩

theorem unleased_splice (entries : List LogEntry) : Unleased (splice entries : Method W Unit) := by
  induction entries with
  | nil => exact Fallible.Respects.pure _
  | cons entry rest ih =>
    apply Fallible.Respects.get_bind
    rintro core _ ⟨lease, rfl⟩
    apply Fallible.Respects.ite Iff.rfl ih
    have same : ({ core with lease } : RaftCore W).termAt entry.index = core.termAt entry.index := rfl
    rw [same]
    cases core.termAt entry.index with
    | none => exact Fallible.Respects.bind (unleased_appendReplicated entry) fun _ => ih
    | some t =>
      apply Fallible.Respects.ite Iff.rfl ih
      apply Fallible.Respects.bind (unleased_truncateFrom _)
      intro _
      exact Fallible.Respects.bind (unleased_appendReplicated entry) fun _ => ih

theorem unleased_store (args : AppendEntriesArgs) :
    Unleased (store args : Method W AppendEntriesReply) := by
  apply Fallible.Respects.bind (unleased_splice _)
  intro _
  apply Fallible.Respects.bind (unleased_onLog _)
  intro _
  apply Fallible.Respects.bind
  · apply unleased_modify
    intro core lease
    unfold adoptCommit
    by_cases newer : core.commitIndex < args.leaderCommit
    · exact ⟨lease, by rw [if_pos newer, if_pos newer]; rfl⟩
    · exact ⟨lease, by rw [if_neg newer, if_neg newer]⟩
  · intro _
    apply Fallible.Respects.get_bind
    rintro core _ ⟨lease, rfl⟩
    exact Fallible.Respects.pure _

theorem unleased_handleAppendEntries (clock : Clock) (args : AppendEntriesArgs) :
    Unleased (handleAppendEntries clock args : Method W AppendEntriesReply) := by
  apply Fallible.Respects.get_bind
  rintro core _ ⟨lease, rfl⟩
  apply Fallible.Respects.ite Iff.rfl (Fallible.Respects.pure _)
  apply Fallible.Respects.bind
  · rintro core _ ⟨lease, rfl⟩
    unfold recogniseLeader
    by_cases newer : core.hard.currentTerm < args.term
    · rw [if_pos newer, if_pos (show ({ core with lease } : RaftCore W).hard.currentTerm < args.term
        from newer)]
      exact unleased_becomeFollower _ _ core _ ⟨lease, rfl⟩
    · rw [if_neg newer, if_neg (show ¬ ({ core with lease } : RaftCore W).hard.currentTerm < args.term
        from newer)]
      exact ⟨rfl, lease, rfl⟩
  · intro _
    apply Fallible.Respects.bind (unleased_resetElectionTimer clock)
    intro _
    apply Fallible.Respects.get_bind
    rintro core _ ⟨lease, rfl⟩
    apply Fallible.Respects.ite Iff.rfl (Fallible.Respects.pure _)
    exact Fallible.Respects.ite Iff.rfl (Fallible.Respects.pure _) (unleased_store args)

end Log
end WalKv.RaftCore
