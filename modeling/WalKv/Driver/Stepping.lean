import WalKv.Cluster.Acknowledgement
import WalKv.Driver.Carrying
import WalKv.Driver.Deployment

/-! The sections of a driver that the cluster sees. Each of them does to the driver's state what the
action of the cluster does to the server next to it, and the thread that moves again has what it
relies on. -/
namespace WalKv
open RaftCore

theorem unleased_appendAsLeader [Bincode] (command : Command) :
    Unleased (appendAsLeader command) := by
  apply Fallible.Respects.bind (unleased_appendCommand command)
  intro entry
  apply Fallible.Respects.bind (unleased_onLog _)
  intro _
  apply Fallible.Respects.bind
  · apply Fallible.Respects.modify
    intro core core' same
    exact same.advanceCommitIndex
  · exact fun _ => Fallible.Respects.pure _

namespace Driver

theorem Fits.latest {server : Server} {store : Store} {calls : List (Nat × AppendCall)}
    {thread l : Nat} {pc : Pc} (fits : Fits server store calls thread pc) (latest : pc.latest = some l) : Held server l := by
  cases pc with
  | tick | elect | campaigning _ | replicate | broadcasting _ | apply | done => cases latest
  | storing batch =>
    cases latest
    exact fits.1
  | compacting _ _ =>
    cases latest
    exact fits.1
  | snapshotting _ | publishing _ =>
    cases latest
    exact fits

namespace Carries
variable {cfg : Config} {server : Server} {s : State} {calls : List (Nat × AppendCall)}
  {thread : Nat}

theorem campaign (carries : Carries cfg server s calls) (clock : Clock)
    (keeps : Keeps s server (timeoutEffect clock server).server 0) :
    Carries cfg (timeoutEffect clock server).server (campaignStep clock s) calls ∧
      Deployment.candidacy clock s.core = (timeoutEffect clock server).voteCalls := by
  unfold timeoutEffect at keeps ⊢
  unfold campaignStep Deployment.candidacy
  rcases (unleased_becomeCandidate clock).cases carries.core with
    ⟨args, core, core', ran, ran', lease, rfl⟩ | ⟨stop, core, core', ran, ran', same⟩
  · rw [ran] at keeps ⊢
    rw [ran']
    refine ⟨?_, rfl⟩
    refine carries.next (moved_set rfl) keeps ⟨lease, rfl⟩ ?_ (by simp [Pc.latest])
      (by simp [Pc.holdsStore]) (fun _ => .inl) (.inl rfl) (keeps.shelf carries.shelf)
      carries.commitTx carries.tasks
    exact ⟨rfl, _, rfl, rfl, rfl, .refl _⟩
  · rw [ran] at keeps ⊢
    rw [ran']
    exact ⟨carries.goes (moved_set rfl) rfl keeps same rfl rfl rfl fun _ => id, rfl⟩

theorem requestVote (carries : Carries cfg server s calls) (call : VoteCall) (clock : Clock)
    (keeps : Keeps s server (requestVoteEffect call clock server).server s.threads.length) :
    Carries cfg (requestVoteEffect call clock server).server
        { s with core := (handleRequestVote clock call.args s.core).2 } calls ∧
      Deployment.voteReplies call clock s.core =
        (requestVoteEffect call clock server).voteAnswers := by
  unfold requestVoteEffect at keeps ⊢
  unfold Deployment.voteReplies
  rcases (unleased_handleRequestVote clock call.args).cases carries.core with
    ⟨reply, core, core', ran, ran', same⟩ | ⟨stop, core, core', ran, ran', same⟩
  all_goals
    rw [ran] at keeps ⊢
    rw [ran']
    exact ⟨carries.goes (moved_none rfl) rfl keeps same rfl rfl rfl fun _ => id, rfl⟩

theorem abort (carries : Carries cfg server s calls) (task : Nat × Nat) :
    Carries cfg server { s with tasks := s.tasks.erase task } calls :=
  carries.stutters (moved_none rfl) rfl carries.core rfl rfl fun _ => List.mem_of_mem_erase

/-- A broadcast waits for the request that one of its tasks has built. -/
theorem build (carries : Carries cfg server s calls) {broadcast : Broadcast} {peer : Nat}
    (here : s.pc thread = some (.broadcasting broadcast)) (call : AppendCall)
    (built : call.args = s.core.buildAppendEntries peer) :
    Carries cfg server (buildStep thread peer s) ((thread, call) :: calls) := by
  obtain ⟨lease, same⟩ := carries.core
  obtain ⟨begun, above⟩ := carries.fits thread _ here
  have term : call.args.term = server.core.hard.currentTerm := by
    rw [built, same]
    rfl
  unfold buildStep
  simp only [here]
  refine carries.next (moved_set rfl) (.same _ _ _) carries.core ?_ (by simp [Pc.latest])
    (by simp [Pc.holdsStore]) ?_ (.inl rfl) carries.shelf carries.commitTx
    fun task listed => carries.tasks task (List.mem_of_mem_erase listed)
  · refine ⟨begun, ?_⟩
    intro other listed owner
    rcases List.mem_cons.mp listed with rfl | old
    · exact begun.trans term.ge
    · exact above other old owner
  · intro other listed
    rcases List.mem_cons.mp listed with rfl | old
    · exact .inr ⟨rfl, term.le⟩
    · exact .inl old

theorem buildLate (carries : Carries cfg server s calls) {peer : Nat}
    (late : ∀ broadcast, s.pc thread ≠ some (.broadcasting broadcast)) :
    Carries cfg server (buildStep thread peer s) calls := by
  unfold buildStep
  split
  · rename_i broadcast here
    exact absurd here (late broadcast)
  · exact carries.stutters (moved_none rfl) rfl carries.core rfl rfl fun _ => List.mem_of_mem_erase

theorem fewer (carries : Carries cfg server s calls) {calls' : List (Nat × AppendCall)}
    (kept : ∀ call ∈ calls', call ∈ calls) : Carries cfg server s calls' :=
  carries.next (moved_none rfl) (.same _ _ _) carries.core trivial (by simp [Pc.latest])
    (by simp [Pc.holdsStore]) (fun call listed => .inl (kept call listed)) (.inl rfl)
    carries.shelf carries.commitTx carries.tasks

theorem replyNewer (carries : Carries cfg server s calls) {broadcast : Broadcast}
    {peer lastSent : Nat} {reply : AppendEntriesReply}
    (newer : server.core.hard.currentTerm < reply.term)
    (keeps : Keeps s server { server with core := (becomeFollower reply.term none server.core).2 }
      thread) :
    Carries cfg { server with core := (becomeFollower reply.term none server.core).2 }
      (replyStep thread peer lastSent reply broadcast s) calls := by
  have current : s.core.hard.currentTerm = server.core.hard.currentTerm := by
    obtain ⟨lease, same⟩ := carries.core
    rw [same]
  unfold replyStep
  rw [current, if_pos newer]
  rcases (unleased_becomeFollower reply.term none).cases carries.core with
    ⟨_, core, core', ran, ran', same⟩ | ⟨stop, core, core', ran, ran', same⟩
  · rw [ran] at keeps ⊢
    rw [ran']
    exact carries.goes (moved_set rfl) rfl keeps same rfl rfl rfl fun _ => id
  · rw [ran] at keeps ⊢
    rw [ran']
    exact carries.goes (moved_set rfl) (Pc.plain_ite rfl rfl) keeps same rfl rfl rfl fun _ => id

theorem replyIgnored (carries : Carries cfg server s calls) {broadcast : Broadcast}
    {peer lastSent : Nat} {reply : AppendEntriesReply}
    (old : ¬ server.core.hard.currentTerm < reply.term)
    (stale : server.core.role ≠ .leader ∨ server.core.hard.currentTerm ≠ broadcast.term) :
    Carries cfg server (replyStep thread peer lastSent reply broadcast s) calls := by
  obtain ⟨lease, same⟩ := carries.core
  have ignores : (!s.core.isLeader || s.core.hard.currentTerm ≠ broadcast.term) = true := by
    rw [same]
    simpa [isLeader] using stale
  have current : s.core.hard.currentTerm = server.core.hard.currentTerm := by rw [same]
  unfold replyStep
  rw [if_neg (current ▸ old), if_pos ignores]
  exact carries.stutters (moved_set rfl) rfl carries.core rfl rfl fun _ => id

theorem replyHeard (carries : Carries cfg server s calls) {broadcast : Broadcast}
    {peer lastSent : Nat} {reply : AppendEntriesReply}
    (here : s.pc thread = some (.broadcasting broadcast))
    (old : ¬ server.core.hard.currentTerm < reply.term) (leads : server.core.role = .leader)
    (now : server.core.hard.currentTerm = broadcast.term)
    (keeps : Keeps s server
      { server with core := server.core.onAppendEntriesReply peer lastSent reply } thread) :
    Carries cfg { server with core := server.core.onAppendEntriesReply peer lastSent reply }
      (replyStep thread peer lastSent reply broadcast s) calls := by
  obtain ⟨begun, above⟩ := carries.fits thread _ here
  obtain ⟨lease, same⟩ := carries.core
  have counts : ¬ (!s.core.isLeader || s.core.hard.currentTerm ≠ broadcast.term) = true := by
    rw [same]
    simp [isLeader, leads, now]
  have current : s.core.hard.currentTerm = server.core.hard.currentTerm := by rw [same]
  unfold replyStep
  rw [if_neg (current ▸ old), if_neg counts]
  exact carries.next (moved_set rfl) keeps (carries.core.onAppendEntriesReply _ _ _)
    ⟨begun.trans keeps.term, above⟩ (by simp [Pc.latest]) (by simp [Pc.holdsStore])
    (fun _ => .inl) (.inl rfl) (keeps.shelf carries.shelf) carries.commitTx carries.tasks

/-- What is taken lies above all that other threads have to publish. -/
theorem take (carries : Carries cfg server s calls) (n : Nat)
    (above : ∀ x ∈ server.core.takeCommitted.1, server.core.lastApplied < x.index ∧
      x.index ≤ server.core.takeCommitted.2.lastApplied)
    (keeps : Keeps s server (takeEffect n server).server thread) :
    Carries cfg (takeEffect n server).server (takeStep thread s) calls := by
  obtain ⟨batch, released⟩ := carries.core.takeCommitted
  unfold takeEffect at keeps ⊢
  unfold takeStep
  simp only [batch] at keeps ⊢
  split_ifs at keeps ⊢ with empty
  · exact carries.goes (moved_set rfl) (Pc.plain_ite rfl rfl) keeps released rfl rfl rfl fun _ => id
  · obtain ⟨last, ends⟩ : ∃ last, server.core.takeCommitted.1.getLast? = some last :=
      ⟨_, List.getLast?_eq_some_getLast empty⟩
    have latest : (server.core.takeCommitted.1.getLast?.map LogEntry.index).getD 0 = last.index := by
      rw [ends]
      rfl
    have bounds := above last (List.mem_of_getLast? ends)
    refine carries.next (moved_set rfl) keeps released ?_ ?_ (by simp [Pc.holdsStore])
      (fun _ => .inl) (.inl rfl) (keeps.shelf carries.shelf) carries.commitTx carries.tasks
    · refine ⟨⟨?_, server.core.takeCommitted.1, by simp, last, ends, latest.symm⟩, ?_⟩
      · rw [latest]
        exact bounds.2
      · exact fun x inside => (above x inside).2
    · intro l own
      refine .inr fun j q found shared => ?_
      have held := (carries.fits j q found).latest shared
      have same : last.index = l := latest.symm.trans (Option.some.inj own)
      have reached := held.applied
      omega

/-- The snapshot that a thread compacts to is the one the cluster takes at that index. -/
theorem compact (carries : Carries cfg server s calls) {latest : Nat} {snapshotMeta : SnapshotMeta}
    (here : s.pc thread = some (.compacting latest snapshotMeta))
    (keeps : Keeps s server { server with core := (RaftCore.compact
      ⟨snapshotMeta.lastIncludedIndex,
        (server.core.termAt snapshotMeta.lastIncludedIndex).getD 0⟩ server.core).2 } thread) :
    Carries cfg { server with core := (RaftCore.compact
      ⟨snapshotMeta.lastIncludedIndex,
        (server.core.termAt snapshotMeta.lastIncludedIndex).getD 0⟩ server.core).2 }
      (compactStep thread latest snapshotMeta s) calls := by
  obtain ⟨held, rfl⟩ := carries.fits thread _ here
  have same : (RaftCore.compact ⟨s.store.snapshotDir.latest.lastIncludedIndex,
      (server.core.termAt s.store.snapshotDir.latest.lastIncludedIndex).getD 0⟩ server.core) =
        RaftCore.compact s.store.snapshotDir.latest server.core := by
    rw [carries.shelf.term]
    rfl
  rw [same] at keeps ⊢
  unfold compactStep
  rcases (unleased_compact s.store.snapshotDir.latest).cases carries.core with
    ⟨_, core, core', ran, ran', same⟩ | ⟨stop, core, core', ran, ran', same⟩
  · rw [ran] at keeps ⊢
    rw [ran']
    have kept : Held { server with core } latest :=
      ⟨held.applied.trans keeps.applied, held.taken⟩
    exact carries.next (moved_set rfl) keeps same kept (fun l own => .inl ⟨_, here, own⟩)
      (by simp [Pc.holdsStore]) (fun _ => .inl) (.inl rfl) (keeps.shelf carries.shelf)
      carries.commitTx carries.tasks
  · rw [ran] at keeps ⊢
    rw [ran']
    exact carries.goes (moved_set rfl) (Pc.plain_ite rfl rfl) keeps same rfl rfl rfl fun _ => id

/-- The thread publishes the last index of the batch it took. -/
theorem publish (carries : Carries cfg server s calls) {latest : Nat} {batch : List LogEntry}
    {last : LogEntry} (here : s.pc thread = some (.publishing latest))
    (ends : batch.getLast? = some last) (index : last.index = latest) :
    Carries cfg { server with taken := server.taken.erase batch, commitTx := last.index }
      ({ s with commitTx := latest }.idle thread) calls := by
  have keeps : Keeps s server { server with
      taken := server.taken.erase batch, commitTx := last.index } thread := by
    refine ⟨le_rfl, le_rfl, id, ?_, .inr rfl⟩
    intro other listed
    by_cases same : other = batch
    · subst same
      exact .inr ⟨last, _, ends, here, congrArg some index.symm⟩
    · exact .inl ((List.mem_erase_of_ne same).mpr listed)
  have plain : (if thread = 0 then Pc.tick else Pc.done).plain = true := Pc.plain_ite rfl rfl
  refine carries.next (moved_set rfl) keeps carries.core (Pc.plain_fits plain) ?_ ?_ (fun _ => .inl)
    (.inl rfl) carries.shelf index.symm carries.tasks
  · intro l own
    rw [Pc.plain_latest plain] at own
    cases own
  · intro holds
    rw [Pc.plain_holdsStore plain] at holds
    cases holds

section Appending
variable [Bincode]

theorem appendEntries (carries : Carries cfg server s calls) (call : AppendCall) (clock : Clock)
    (keeps : Keeps s server (appendEntriesEffect call clock server).server s.threads.length) :
    Carries cfg (appendEntriesEffect call clock server).server
        { s with core := (handleAppendEntries clock call.args s.core).2 } calls ∧
      Deployment.appendReplies call clock s.core =
        (appendEntriesEffect call clock server).appendAnswers := by
  unfold appendEntriesEffect at keeps ⊢
  unfold Deployment.appendReplies
  rcases (unleased_handleAppendEntries clock call.args).cases carries.core with
    ⟨reply, core, core', ran, ran', same⟩ | ⟨stop, core, core', ran, ran', same⟩
  all_goals
    rw [ran] at keeps ⊢
    rw [ran']
    exact ⟨carries.goes (moved_none rfl) rfl keeps same rfl rfl rfl fun _ => id, rfl⟩

theorem win (carries : Carries cfg server s calls)
    (keeps : Keeps s server (winEffect server).server 0) :
    Carries cfg (winEffect server).server (winStep s) calls := by
  unfold winEffect at keeps ⊢
  unfold winStep
  rcases (unleased_appendAsLeader .noop).cases carries.core.becomeLeader with
    ⟨entry, core, core', ran, ran', same⟩ | ⟨stop, core, core', ran, ran', same⟩
  all_goals
    simp only [ran] at keeps ⊢
    rw [ran']
    exact carries.goes (moved_set rfl) rfl keeps same rfl rfl rfl fun _ => id

theorem vote (carries : Carries cfg server s calls) {answer : VoteAnswer} {campaign running : Campaign}
    (term : running.term = campaign.term) (votes : running.votes = campaign.votes)
    (waiting : campaign.waiting.Subperm running.waiting)
    (keeps : Keeps s server (voteAnswerEffect answer running server).server 0) :
    Carries cfg (voteAnswerEffect answer running server).server
      (voteStep answer.voter answer.reply campaign s) calls := by
  obtain ⟨lease, same⟩ := carries.core
  have current : s.core.hard.currentTerm = server.core.hard.currentTerm := by rw [same]
  have role : s.core.role = server.core.role := by rw [same]
  have quorum : s.core.quorum = server.core.quorum := by
    rw [same]
    rfl
  have heard (votes' : Nat) (keeps : Keeps s server
      { server with campaign := some (running.heard answer.voter votes') } 0) :
      Carries cfg { server with campaign := some (running.heard answer.voter votes') }
        (s.goto 0 (.campaigning (campaign.heard answer.voter votes'))) calls := by
    refine carries.next (moved_set rfl) keeps carries.core ?_ (by simp [Pc.latest])
      (by simp [Pc.holdsStore]) (fun _ => .inl) (.inl rfl) carries.shelf carries.commitTx
      carries.tasks
    exact ⟨rfl, _, rfl, term, congrArg (· + votes') votes, waiting.erase _⟩
  unfold voteAnswerEffect at keeps ⊢
  unfold voteStep
  rw [current, role, quorum, ← term, ← votes]
  split_ifs at keeps ⊢ with newer stale granted enough
  · rcases (unleased_becomeFollower answer.reply.term none).cases carries.core with
      ⟨_, core, core', ran, ran', same⟩ | ⟨stop, core, core', ran, ran', same⟩
    all_goals
      rw [ran] at keeps ⊢
      rw [ran']
      exact carries.goes (moved_set rfl) rfl keeps same rfl rfl rfl fun _ => id
  · exact carries.goes (moved_set rfl) rfl keeps carries.core rfl rfl rfl fun _ => id
  · exact carries.win keeps
  · exact heard 1 keeps
  · exact heard 0 keeps

/-- A proposal is a thread of its own from the start. -/
theorem propose (carries : Carries cfg server s calls) (leader : s.core.isLeader = true)
    (command : Command)
    (keeps : Keeps s server (proposeEffect command server).server s.threads.length) :
    Carries cfg (proposeEffect command server).server (proposeStep command s) calls := by
  unfold proposeEffect at keeps ⊢
  unfold proposeStep
  rw [if_pos leader]
  rcases (unleased_appendAsLeader command).cases carries.core with
    ⟨entry, core, core', ran, ran', same⟩ | ⟨stop, core, core', ran, ran', same⟩
  all_goals
    rw [ran] at keeps ⊢
    rw [ran']
    exact carries.goes (moved_added rfl) rfl keeps same rfl rfl rfl fun _ => id

theorem refused (carries : Carries cfg server s calls) (follower : ¬ s.core.isLeader = true)
    (command : Command) : Carries cfg server (proposeStep command s) calls := by
  unfold proposeStep
  rw [if_neg follower]
  exact carries.stutters (moved_added rfl) rfl carries.core rfl rfl fun _ => id

end Appending
end Carries

/-- A driver that has just started, next to a server that has. -/
theorem carries_bootstrap [Bincode] {clock : Clock} {cfg : Config} {file : HardFile} {dir : SnapshotDir}
    {log : FlatLog} {s : State} (booted : bootstrap clock cfg file dir log = .ok s) :
    ∃ core, restore clock cfg file dir.latest log = .ok core ∧
      Carries cfg (Server.fresh core) s [] := by
  obtain ⟨core, restored, booted⟩ := Except.of_bind_ok booted
  cases booted
  obtain ⟨kept, found⟩ := Store.opened_latest cfg.snapshotThreshold dir
  have first := Store.opened_lastApplied cfg.snapshotThreshold dir
  rw [found] at restored first
  obtain ⟨records, entries, _, _, _, same⟩ := restore_ok restored
  have only {j : Nat} {q : Pc} (found : ([.tick] : List Pc)[j]? = some q) : j = 0 ∧ q = .tick := by
    cases j with
    | zero => exact ⟨rfl, (Option.some.inj found).symm⟩
    | succ j => simp at found
  refine ⟨core, restored, .refl _, ?_, ?_, ?_, ?_, rfl, by simp, by simp⟩
  · intro thread pc found
    obtain ⟨rfl, rfl⟩ := only found
    trivial
  · intro i j p q l first second
    rw [(only first).1, (only second).1]
    exact fun _ _ => rfl
  · intro i j p q first second
    rw [(only first).1, (only second).1]
    exact fun _ _ => rfl
  · rw [same]
    refine ⟨first.le, ?_, ?_, ?_⟩
    · exact (congrArg (·.latest.lastIncludedIndex) kept).trans first.symm |>.le
    · exact (congrArg (·.latest.lastIncludedIndex) kept).ge
    · simp only [kept]
      exact if_pos rfl

end Driver
end WalKv
