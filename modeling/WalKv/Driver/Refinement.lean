import WalKv.Driver.Stepping

/-! The drivers refine the cluster. Whatever the threads of the nodes do between each other's locked
sections, the cores, the messages and the published indices are those of a run of the cluster. -/
namespace WalKv
open RaftCore Transition Driver

theorem Refines.committed_entry [Bincode] {m : Membership} {c : Cluster} {a : Spec} {n i : Nat}
    (rel : Refines m c a) (member : n ∈ m.members)
    (above : (c.core n).snapshot.lastIncludedIndex < i) (within : i ≤ (c.core n).commitIndex) :
    ∃ x, (c.core n).entryAt i = some x ∧
      ∃ t k, a.commits t k ∧ i - 1 < k ∧ (a.hist t)[i - 1]? = some x := by
  have stands := rel.node n member
  have known := rel.known n
  rw [stands.commit] at known
  have inside := known.within rel.invariant
  have stored : (a.log n)[i - 1]? = some ((a.log n).get ⟨i - 1, by omega⟩) :=
    List.getElem?_eq_getElem _
  exact ⟨_, (stands.sound.holds.entryAt above).trans stored,
    known.entry rel.invariant (by omega) stored⟩

namespace Deployment
section Runs
variable [Bincode] {m : Membership} {d d' : Deployment} {c : Cluster} {a : Spec} {e : Effect}
  {n : Nat} {s : State} {calls : List (Nat × AppendCall)}

/-- A deployment next to the cluster that it runs. -/
structure Deployed (m : Membership) (d : Deployment) (c : Cluster) : Prop where
  refines : ∃ a, Refines m c a
  node : ∀ n ∈ m.members, Carries (m.config n) (c.server n) (d.node n) (d.inFlight n)
  voteCalls : d.voteCalls = c.voteCalls
  voteAnswers : d.voteAnswers = c.voteAnswers
  appendCalls : d.appendCalls = c.appendCalls
  appendAnswers : d.appendAnswers = c.appendAnswers

/-- The cluster can go on to where it stands next to the deployment again. -/
def Keeps (m : Membership) (d : Deployment) (c : Cluster) : Prop :=
  ∃ c', Reaches (WalKv.step m) WalKv.Orderly c c' ∧ Deployed m d c'

namespace Deployed

theorem still (dep : Deployed m d c)
    (carries : Carries (m.config n) (c.server n) s calls) : Keeps m (d.put n calls s) c := by
  refine ⟨c, .refl, { dep with node := ?_ }⟩
  intro v member
  by_cases here : v = n
  · subst here
    simpa only [put, Function.update_self] using carries
  · simpa only [put, Function.update_of_ne here] using dep.node v member

/-- A node goes on, and so does the cluster. -/
theorem follow [LawfulBincode] (dep : Deployed m d c) {action : WalKv.Action}
    (acted : effect m c action = some e) (acting : action.node = n) (member : n ∈ m.members)
    (orderly : WalKv.Orderly c action) (carries : Carries (m.config n) e.server s calls)
    (shape : d' = { d.put n calls s with
      voteCalls := d.voteCalls ++ e.voteCalls, voteAnswers := d.voteAnswers ++ e.voteAnswers
      appendCalls := d.appendCalls ++ e.appendCalls
      appendAnswers := d.appendAnswers ++ e.appendAnswers }) : Keeps m d' c := by
  subst acting shape
  have stepped : WalKv.step m c action = some (c.apply action.node e) := by
    rw [WalKv.step, if_pos member, acted]
    rfl
  obtain ⟨a, rel⟩ := dep.refines
  refine ⟨_, .next action .refl orderly stepped, ?_⟩
  refine ⟨refines_step rel orderly.1 orderly.2.1 orderly.2.2 stepped, ?_, ?_, ?_, ?_, ?_⟩
  · intro v voter
    by_cases here : v = action.node
    · subst here
      rw [Cluster.apply_server_self]
      simpa only [put, Function.update_self] using carries
    · rw [Cluster.apply_server_other _ _ here]
      simpa only [put, Function.update_of_ne here] using dep.node v voter
  · exact congrArg (· ++ e.voteCalls) dep.voteCalls
  · exact congrArg (· ++ e.voteAnswers) dep.voteAnswers
  · exact congrArg (· ++ e.appendCalls) dep.appendCalls
  · exact congrArg (· ++ e.appendAnswers) dep.appendAnswers

theorem followQuietly [LawfulBincode] (dep : Deployed m d c) {action : WalKv.Action}
    (acted : effect m c action = some e) (acting : action.node = n) (member : n ∈ m.members)
    (orderly : WalKv.Orderly c action)
    (quiet : e.voteCalls = [] ∧ e.voteAnswers = [] ∧ e.appendCalls = [] ∧ e.appendAnswers = [])
    (carries : Carries (m.config n) e.server s calls) : Keeps m (d.put n calls s) c := by
  refine dep.follow acted acting member orderly carries ?_
  rw [quiet.1, quiet.2.1, quiet.2.2.1, quiet.2.2.2]
  simp [put]

end Deployed

theorem keeps_effect [LawfulBincode] {action : WalKv.Action} {thread : Nat}
    (acted : effect m c action = some e) (acting : action.node = n) (rel : Refines m c a)
    (member : n ∈ m.members) (orderly : WalKv.Orderly c action)
    (plain : NoSnapshot action) (running : ∀ n clock, action ≠ .crash n clock)
    (taken : ∀ batch ∈ (c.server n).taken, batch ∈ e.server.taken)
    (campaign : thread = 0 ∨ e.server.campaign = (c.server n).campaign) :
    Driver.Keeps s (c.server n) e.server thread := by
  subst acting
  exact
    { applied := effect_applied rel member orderly.2.2 acted running (by rintro _ _ _ rfl; exact plain)
      term := effect_term rel member orderly acted
      shelf := fun shelf => shelf.stable (effect_stable rel member orderly plain acted running)
        (effect_applied rel member orderly.2.2 acted running (by rintro _ _ _ rfl; exact plain))
      taken := fun batch held => .inl (taken batch held)
      campaign := campaign }

namespace Deployed
variable [LawfulBincode]

theorem campaign (dep : Deployed m d c) (member : n ∈ m.members) (clock : Clock) :
    Keeps m { d.put n (d.inFlight n) (campaignStep clock (d.node n)) with
      voteCalls := d.voteCalls ++ candidacy clock (d.core n) } c := by
  obtain ⟨a, rel⟩ := dep.refines
  have acted : effect m c (.timeout n clock) = some (timeoutEffect clock (c.server n)) := rfl
  have orderly : WalKv.Orderly c (.timeout n clock) := ⟨trivial, trivial, trivial⟩
  have unseen := timeout_unseen clock (c.server n)
  obtain ⟨carries, sends⟩ := (dep.node n member).campaign clock
    (keeps_effect acted rfl rel member orderly trivial (by simp) (by simp [unseen.taken]) (.inl rfl))
  have quiet : (timeoutEffect clock (c.server n)).voteAnswers = [] ∧
      (timeoutEffect clock (c.server n)).appendCalls = [] ∧
      (timeoutEffect clock (c.server n)).appendAnswers = [] := by
    unfold timeoutEffect
    split <;> exact ⟨rfl, rfl, rfl⟩
  refine dep.follow acted rfl member orderly carries ?_
  rw [← sends, quiet.1, quiet.2.1, quiet.2.2]
  simp [put, core, WalKv.Action.node]

theorem requestVote (dep : Deployed m d c) {call : VoteCall} (member : call.dst ∈ m.members)
    (sent : call ∈ d.voteCalls) (clock : Clock) :
    Keeps m { d.put call.dst (d.inFlight call.dst) { d.node call.dst with
        core := (handleRequestVote clock call.args (d.node call.dst).core).2 } with
      voteAnswers := d.voteAnswers ++ voteReplies call clock (d.core call.dst) } c := by
  obtain ⟨a, rel⟩ := dep.refines
  have acted : effect m c (.requestVote call clock) =
      some (requestVoteEffect call clock (c.server call.dst)) := if_pos (dep.voteCalls ▸ sent)
  have orderly : WalKv.Orderly c (.requestVote call clock) := ⟨trivial, trivial, trivial⟩
  have unseen := requestVote_unseen call clock (c.server call.dst)
  have quiet : (requestVoteEffect call clock (c.server call.dst)).voteCalls = [] ∧
      (requestVoteEffect call clock (c.server call.dst)).appendCalls = [] ∧
      (requestVoteEffect call clock (c.server call.dst)).appendAnswers = [] ∧
      (requestVoteEffect call clock (c.server call.dst)).server.campaign =
        (c.server call.dst).campaign := by
    unfold requestVoteEffect
    split <;> exact ⟨rfl, rfl, rfl, rfl⟩
  obtain ⟨carries, replies⟩ := (dep.node call.dst member).requestVote call clock
    (keeps_effect acted rfl rel member orderly trivial (by simp) (by simp [unseen.taken])
      (.inr quiet.2.2.2))
  refine dep.follow acted rfl member orderly carries ?_
  rw [← replies, quiet.1, quiet.2.1, quiet.2.2.1]
  simp [put, core, WalKv.Action.node]

theorem appendEntries (dep : Deployed m d c) {call : AppendCall} (member : call.dst ∈ m.members)
    (sent : call ∈ d.appendCalls) (clock : Clock) :
    Keeps m { d.put call.dst (d.inFlight call.dst) { d.node call.dst with
        core := (handleAppendEntries clock call.args (d.node call.dst).core).2 } with
      appendAnswers := d.appendAnswers ++ appendReplies call clock (d.core call.dst) } c := by
  obtain ⟨a, rel⟩ := dep.refines
  have acted : effect m c (.appendEntries call clock) =
      some (appendEntriesEffect call clock (c.server call.dst)) := if_pos (dep.appendCalls ▸ sent)
  have orderly : WalKv.Orderly c (.appendEntries call clock) := ⟨trivial, trivial, trivial⟩
  have quiet : (appendEntriesEffect call clock (c.server call.dst)).voteCalls = [] ∧
      (appendEntriesEffect call clock (c.server call.dst)).voteAnswers = [] ∧
      (appendEntriesEffect call clock (c.server call.dst)).appendCalls = [] ∧
      (appendEntriesEffect call clock (c.server call.dst)).server.campaign =
        (c.server call.dst).campaign ∧
      (appendEntriesEffect call clock (c.server call.dst)).server.taken =
        (c.server call.dst).taken := by
    unfold appendEntriesEffect
    split <;> exact ⟨rfl, rfl, rfl, rfl, rfl⟩
  obtain ⟨carries, replies⟩ := (dep.node call.dst member).appendEntries call clock
    (keeps_effect acted rfl rel member orderly trivial (by simp) (by simp [quiet.2.2.2.2])
      (.inr quiet.2.2.2.1))
  refine dep.follow acted rfl member orderly carries ?_
  rw [← replies, quiet.1, quiet.2.1, quiet.2.2.1]
  simp [put, core, WalKv.Action.node]

theorem vote (dep : Deployed m d c) {answer : VoteAnswer} (member : answer.candidate ∈ m.members)
    {campaign : Campaign} (here : (d.node answer.candidate).pc 0 = some (.campaigning campaign))
    (sent : answer ∈ d.voteAnswers) (asked : answer.term = campaign.term)
    (waits : answer.voter ∈ campaign.waiting) :
    Keeps m (d.put answer.candidate (d.inFlight answer.candidate)
      (voteStep answer.voter answer.reply campaign (d.node answer.candidate))) c := by
  obtain ⟨a, rel⟩ := dep.refines
  have carries := dep.node answer.candidate member
  obtain ⟨_, running, runs, term, votes, waiting⟩ := carries.fits 0 _ here
  have acted : effect m c (.voteAnswer answer) =
      some (voteAnswerEffect answer running (c.server answer.candidate)) := by
    simp only [effect, runs]
    exact if_pos ⟨dep.voteAnswers ▸ sent, asked.trans term.symm, waiting.subset waits⟩
  have orderly : WalKv.Orderly c (.voteAnswer answer) := ⟨trivial, trivial, trivial⟩
  have unseen := voteAnswer_unseen answer running (c.server answer.candidate)
  refine dep.followQuietly acted rfl member orderly ?_ (carries.vote term votes waiting
    (keeps_effect acted rfl rel member orderly trivial (by simp) (by simp [unseen.taken]) (.inl rfl)))
  unfold voteAnswerEffect winEffect
  split_ifs <;> exact ⟨rfl, rfl, rfl, rfl⟩

theorem propose (dep : Deployed m d c) (member : n ∈ m.members) (command : Command) :
    Keeps m (d.put n (d.inFlight n) (proposeStep command (d.node n))) c := by
  have carries := dep.node n member
  by_cases leader : (d.node n).core.isLeader = true
  · obtain ⟨a, rel⟩ := dep.refines
    have acted : effect m c (.propose n command) = some (proposeEffect command (c.server n)) := rfl
    have orderly : WalKv.Orderly c (.propose n command) := ⟨trivial, trivial, trivial⟩
    have quiet : (proposeEffect command (c.server n)).server.taken = (c.server n).taken ∧
        (proposeEffect command (c.server n)).server.campaign = (c.server n).campaign := by
      unfold proposeEffect
      split <;> exact ⟨rfl, rfl⟩
    refine dep.followQuietly acted rfl member orderly ?_ (carries.propose leader command
      (keeps_effect acted rfl rel member orderly trivial (by simp) (by simp [quiet.1])
        (.inr quiet.2)))
    unfold proposeEffect
    split <;> exact ⟨rfl, rfl, rfl, rfl⟩
  · exact dep.still (carries.refused leader command)

theorem take (dep : Deployed m d c) (member : n ∈ m.members) (thread : Nat) :
    Keeps m (d.put n (d.inFlight n) (takeStep thread (d.node n))) c := by
  obtain ⟨a, rel⟩ := dep.refines
  have acted : effect m c (.take n) = some (takeEffect n (c.server n)) := rfl
  have orderly : WalKv.Orderly c (.take n) := ⟨trivial, trivial, trivial⟩
  have taken : ∀ batch ∈ (c.server n).taken, batch ∈ (takeEffect n (c.server n)).server.taken := by
    intro batch held
    simp only [takeEffect]
    split_ifs
    · exact held
    · exact List.mem_append_left _ held
  refine dep.followQuietly acted rfl member orderly ⟨rfl, rfl, rfl, rfl⟩
    ((dep.node n member).take n ?_
      (keeps_effect acted rfl rel member orderly trivial (by simp) taken (.inr rfl)))
  have indexed := (rel.node n member).sound.holds.indexed
  have ran : (c.server n).core.takeCommitted = _ := rel.takeCommitted member
  rw [ran]
  intro x inside
  exact ⟨(indexed.shorter (List.take_prefix _ _)).lt_of_mem_drop inside,
    indexed.le_of_mem_take (List.mem_of_mem_drop inside)⟩

theorem compact (dep : Deployed m d c) (member : n ∈ m.members) {thread latest : Nat}
    {snapshotMeta : SnapshotMeta}
    (here : (d.node n).pc thread = some (.compacting latest snapshotMeta)) :
    Keeps m (d.put n (d.inFlight n) (compactStep thread latest snapshotMeta (d.node n))) c := by
  obtain ⟨a, rel⟩ := dep.refines
  have carries := dep.node n member
  obtain ⟨_, rfl⟩ := carries.fits thread _ here
  have below := carries.shelf.stored.trans carries.shelf.applied
  have acted : effect m c (.compact n (d.node n).store.snapshotDir.latest.lastIncludedIndex) =
    some _ := if_pos below
  have orderly : WalKv.Orderly c (.compact n (d.node n).store.snapshotDir.latest.lastIncludedIndex) :=
    ⟨trivial, trivial, trivial⟩
  refine dep.followQuietly acted rfl member orderly ⟨rfl, rfl, rfl, rfl⟩ (carries.compact here ?_)
  have acting : (WalKv.Action.compact n
    (d.node n).store.snapshotDir.latest.lastIncludedIndex).node ∈ m.members := member
  have applied := effect_applied rel acting trivial acted (by simp) (by simp)
  refine ⟨applied, effect_term rel acting orderly acted, fun shelf => ?_, fun _ => .inl, .inr rfl⟩
  have stands := rel.node n member
  have within := (rel.known n).within rel.invariant
  rw [stands.commit] at within
  have order := stands.applied
  rcases compact_cases rel member below with same | ⟨core', ran, same, index, sound⟩
  · exact (congrArg (Shelved · (d.node n).store) same).mpr shelf
  · refine (congrArg (Shelved · (d.node n).store) ran).mpr ⟨?_, shelf.stored, index.le, ?_⟩
    · rw [same]
      exact shelf.applied
    · rw [sound.holds.termAt index.le (below.trans (order.trans within)),
        ← stands.sound.holds.termAt shelf.above (below.trans (order.trans within))]
      exact shelf.term

theorem publish (dep : Deployed m d c) (member : n ∈ m.members) {thread latest : Nat}
    (here : (d.node n).pc thread = some (.publishing latest)) :
    Keeps m (d.put n (d.inFlight n) ({ d.node n with commitTx := latest }.idle thread)) c := by
  have carries := dep.node n member
  obtain ⟨_, batch, listed, last, ends, index⟩ := carries.fits thread _ here
  have acted : effect m c (.publish n batch) = some { server := { c.server n with
      taken := (c.server n).taken.erase batch, commitTx := last.index } } := by
    simp only [effect, ends]
    exact if_pos listed
  exact dep.followQuietly acted rfl member ⟨trivial, trivial, trivial⟩ ⟨rfl, rfl, rfl, rfl⟩
    (carries.publish here ends index)

theorem build (dep : Deployed m d c) (member : n ∈ m.members) {thread peer : Nat}
    (orderly : Orderly d (.build n thread peer)) (spawned : (thread, peer) ∈ (d.node n).tasks)
    {calls : List (Nat × AppendCall)}
    (carries : Carries (m.config n) (c.server n) (buildStep thread peer (d.node n)) calls) :
    Keeps m { d.put n calls (buildStep thread peer (d.node n)) with
      appendCalls := d.appendCalls ++ [⟨n, peer, (d.core n).buildAppendEntries peer⟩] } c := by
  obtain ⟨a, rel⟩ := dep.refines
  have node := dep.node n member
  obtain ⟨lease, same⟩ := node.core
  have listed : peer ∈ (c.server n).core.peers := by
    rw [(rel.elections.node n member).peers]
    exact node.tasks _ spawned
  have built : (d.core n).buildAppendEntries peer = (c.server n).core.buildAppendEntries peer := by
    rw [core, same]
    rfl
  have acted : effect m c (.build n peer) = some { server := c.server n, appendCalls :=
      [⟨n, peer, (c.server n).core.buildAppendEntries peer⟩] } := if_pos listed
  have allowed : WalKv.Orderly c (.build n peer) := by
    obtain ⟨leads, served⟩ := orderly
    rw [core, same] at leads served
    exact ⟨leads, served, trivial⟩
  refine dep.follow acted rfl member allowed carries ?_
  rw [built]
  simp [put, WalKv.Action.node]

/-- A reply that the broadcast still counts answers a request of its own term. -/
theorem reply (dep : Deployed m d c) (member : n ∈ m.members) {thread : Nat} {call : AppendCall}
    {reply : AppendEntriesReply} {broadcast : Broadcast}
    (here : (d.node n).pc thread = some (.broadcasting broadcast))
    (waits : (thread, call) ∈ d.inFlight n)
    (sent : ⟨call.dst, n, call.args.term, call.args.lastSent, reply⟩ ∈ d.appendAnswers) :
    Keeps m (d.put n ((d.inFlight n).erase (thread, call))
      (replyStep thread call.dst call.args.lastSent reply broadcast (d.node n))) c := by
  obtain ⟨a, rel⟩ := dep.refines
  have carries : Carries (m.config n) (c.server n) (d.node n) ((d.inFlight n).erase (thread, call)) :=
    (dep.node n member).fewer fun _ => List.mem_of_mem_erase
  obtain ⟨begun, above⟩ := (dep.node n member).fits thread _ here
  have first : broadcast.term ≤ call.args.term := above _ waits rfl
  have last : call.args.term ≤ (c.server n).core.hard.currentTerm := (dep.node n member).calls _ waits
  have acted : effect m c
      (.appendAnswer ⟨call.dst, n, call.args.term, call.args.lastSent, reply⟩) =
      some (appendAnswerEffect ⟨call.dst, n, call.args.term, call.args.lastSent, reply⟩
        (c.server n)) := if_pos (dep.appendAnswers ▸ sent)
  have orderly : WalKv.Orderly c
      (.appendAnswer ⟨call.dst, n, call.args.term, call.args.lastSent, reply⟩) :=
    ⟨trivial, trivial, trivial⟩
  by_cases newer : (c.server n).core.hard.currentTerm < reply.term
  · rw [appendAnswerEffect, if_pos newer] at acted
    exact dep.followQuietly acted rfl member orderly ⟨rfl, rfl, rfl, rfl⟩ (carries.replyNewer newer
      (keeps_effect acted rfl rel member orderly trivial (by simp) (fun _ => id) (.inr rfl)))
  · by_cases stale : (c.server n).core.role ≠ .leader ∨
        (c.server n).core.hard.currentTerm ≠ broadcast.term
    · exact dep.still (carries.replyIgnored newer stale)
    · obtain ⟨leads, now⟩ := not_or.mp stale
      rw [not_not] at leads now
      have counted : ¬ ((c.server n).core.role ≠ .leader ∨
          (c.server n).core.hard.currentTerm ≠ call.args.term) := by
        simp only [leads, ne_eq, not_true_eq_false, false_or, not_not]
        omega
      rw [appendAnswerEffect, if_neg newer, if_neg counted] at acted
      exact dep.followQuietly acted rfl member orderly ⟨rfl, rfl, rfl, rfl⟩
        (carries.replyHeard here newer leads now
          (keeps_effect acted rfl rel member orderly trivial (by simp) (fun _ => id) (.inr rfl)))

theorem crash (dep : Deployed m d c) (member : n ∈ m.members) {clock : Clock}
    (booted : bootstrap clock (m.config n) (d.core n).hardPath (d.node n).store.snapshotDir
      (d.core n).log = .ok s) : Keeps m (d.put n [] s) c := by
  obtain ⟨lease, same⟩ := (dep.node n member).core
  have shelf := (dep.node n member).shelf
  obtain ⟨core', restored, carries⟩ := carries_bootstrap booted
  rw [core, same] at restored
  rcases shelf.above.eq_or_lt with own | newer
  · have loaded : (d.node n).store.snapshotDir.latest = (c.server n).core.snapshot := by
      have term := shelf.term
      rw [← own, termAt, if_pos rfl] at term
      exact congrArg₂ SnapshotMeta.mk own.symm (Option.some.inj term).symm
    have acted : effect m c (.crash n clock) = some { server := Server.fresh core' } := by
      simp only [effect, restart]
      rw [← loaded, restored]
    exact dep.followQuietly acted rfl member ⟨trivial, trivial, trivial⟩ ⟨rfl, rfl, rfl, rfl⟩ carries
  · have acted : effect m c (.crashUncompacted n clock
        (d.node n).store.snapshotDir.latest.lastIncludedIndex) =
        some { server := Server.fresh core' } := by
      simp only [effect, restart, newer, shelf.stored.trans shelf.applied, true_and, if_true,
        shelf.term, Option.getD_some]
      rw [restored]
    exact dep.followQuietly acted rfl member ⟨trivial, trivial, trivial⟩ ⟨rfl, rfl, rfl, rfl⟩ carries

omit [LawfulBincode] in
theorem stamped (dep : Deployed m d c) (member : n ∈ m.members) :
    ∃ term, (c.server n).core.termAt (d.node n).store.lastApplied = some term := by
  obtain ⟨a, rel⟩ := dep.refines
  have stands := rel.node n member
  have shelf := (dep.node n member).shelf
  have within := (rel.known n).within rel.invariant
  rw [stands.commit] at within
  exact ⟨_, stands.sound.holds.termAt (shelf.above.trans shelf.stored)
    (shelf.applied.trans (stands.applied.trans within))⟩

theorem drive (dep : Deployed m d c) (member : n ∈ m.members) {action : Driver.Action}
    (silent : action.silent = true) (stepped : Driver.step (d.node n) action = some s) :
    Keeps m (d.put n (d.inFlight n) s) c := by
  have carries := dep.node n member
  cases step_does stepped with
  | campaign | vote | broadcast | build | reply | requestVote | appendEntries => cases silent
  | tick => exact dep.still (carries.tick _)
  | voteLost here => exact dep.still (carries.voteLost _ here)
  | campaignOver =>
    exact dep.still (carries.stutters (moved_set rfl) rfl carries.core rfl rfl fun _ => id)
  | propose => exact dep.propose member _
  | abort => exact dep.still (carries.abort _)
  | replyLost here => exact dep.still (carries.replyLost here _)
  | broadcastOver => exact dep.still (carries.broadcastOver _ _)
  | take => exact dep.take member _
  | store here unlocked => exact dep.still (carries.store here unlocked)
  | snapshot here =>
    obtain ⟨term, stamped⟩ := dep.stamped member
    exact dep.still (carries.snapshot here _ stamped)
  | compact here => exact dep.compact member here
  | publish here => exact dep.publish member here

/-- Whatever one node does, the cluster can follow. -/
theorem step (dep : Deployed m d c) {action : Action} (orderly : Orderly d action)
    (stepped : Deployment.step m d action = some d') : Keeps m d' c := by
  simp only [Deployment.step, Option.ite_none_right_eq_some] at stepped
  obtain ⟨member, acted⟩ := stepped
  cases action with
  | drive n action =>
    simp only [act, Option.ite_none_right_eq_some, Option.map_eq_some_iff] at acted
    obtain ⟨silent, s, stepped, rfl⟩ := acted
    exact dep.drive member silent stepped
  | campaign n clock =>
    simp only [act, Driver.step, Option.map_eq_some_iff, Option.ite_none_right_eq_some,
      Option.some.injEq] at acted
    obtain ⟨_, ⟨_, rfl⟩, rfl⟩ := acted
    exact dep.campaign member clock
  | requestVote call clock =>
    simp only [act, Driver.step, Option.ite_none_right_eq_some, Option.map_some,
      Option.some.injEq] at acted
    obtain ⟨sent, rfl⟩ := acted
    exact dep.requestVote member sent clock
  | vote answer =>
    simp only [act] at acted
    split at acted
    · rename_i campaign here
      simp only [Driver.step, here, Option.ite_none_right_eq_some, Option.map_eq_some_iff,
        Option.some.injEq] at acted
      obtain ⟨⟨sent, asked⟩, _, ⟨waits, rfl⟩, rfl⟩ := acted
      exact dep.vote member here sent asked waits
    · cases acted
  | broadcast n thread =>
    simp only [act, Driver.step, Option.map_eq_some_iff, Option.ite_none_right_eq_some,
      Option.some.injEq] at acted
    obtain ⟨_, ⟨_, rfl⟩, rfl⟩ := acted
    have member : n ∈ m.members := member
    obtain ⟨a, rel⟩ := dep.refines
    have carries := dep.node n member
    refine dep.still (carries.broadcast ?_)
    obtain ⟨lease, same⟩ := carries.core
    rw [same]
    exact (rel.elections.node n member).peers
  | build n thread peer =>
    simp only [act, Driver.step, Option.map_eq_some_iff, Option.ite_none_right_eq_some,
      Option.some.injEq] at acted
    obtain ⟨_, ⟨spawned, rfl⟩, rfl⟩ := acted
    have member : n ∈ m.members := member
    refine dep.build member orderly spawned ?_
    split
    · rename_i broadcast here
      exact (dep.node n member).build here _ rfl
    · rename_i late
      exact (dep.node n member).buildLate late
  | appendEntries call clock =>
    simp only [act, Driver.step, Option.ite_none_right_eq_some, Option.map_some,
      Option.some.injEq] at acted
    obtain ⟨sent, rfl⟩ := acted
    exact dep.appendEntries member sent clock
  | reply n thread call reply =>
    simp only [act] at acted
    split at acted
    · rename_i broadcast here
      simp only [Option.ite_none_right_eq_some] at acted
      obtain ⟨⟨waits, sent, found⟩, acted⟩ := acted
      simp only [Driver.step, here, found, Option.map_some, Option.some.injEq] at acted
      subst acted
      exact dep.reply member here waits sent
    · cases acted
  | crash n clock =>
    simp only [act] at acted
    split at acted
    · rename_i s booted
      cases acted
      exact dep.crash member booted
    · cases acted

end Deployed

theorem deployed_initial (start : Initial m d) :
    ∃ c, WalKv.Initial m c ∧ Deployed m d c := by
  have booted : ∀ n, ∃ server, n ∈ m.members → (∃ clock core, restore clock (m.config n)
      HardFile.absent default FlatLog.empty = .ok core ∧ server = Server.fresh core) ∧
        Carries (m.config n) server (d.node n) [] := by
    intro n
    by_cases member : n ∈ m.members
    · obtain ⟨clock, booted⟩ := start.node n member
      obtain ⟨core, restored, carries⟩ := carries_bootstrap booted
      exact ⟨Server.fresh core, fun _ => ⟨⟨clock, core, restored, rfl⟩, carries⟩⟩
    · exact ⟨Server.fresh (d.core n), fun inside => absurd inside member⟩
  choose server booted using booted
  have initial : WalKv.Initial m ⟨server, [], [], [], [], []⟩ :=
    ⟨fun n member => (booted n member).1, rfl, rfl, rfl, rfl, rfl⟩
  refine ⟨_, initial, ⟨_, refines_initial initial⟩, ?_, start.voteCalls, start.voteAnswers,
    start.appendCalls, start.appendAnswers⟩
  intro n member
  rw [start.inFlight n member]
  exact (booted n member).2

theorem reachable_deployed [LawfulBincode] (run : Reachable m Orderly d) :
    ∃ c, WalKv.Reachable m WalKv.Orderly c ∧ Deployed m d c := by
  obtain ⟨start, initial, reached⟩ := run
  obtain ⟨c₀, initial', deployed⟩ := deployed_initial initial
  obtain ⟨c, reached', dep⟩ := reached.simulated deployed fun dep orderly stepped =>
    dep.step orderly stepped
  exact ⟨c, ⟨c₀, initial', reached'⟩, dep⟩

/-- The drivers refine the cluster. Whatever the threads of the nodes do, the cluster has a run that
ends with the same cores but for their leases, the same messages and the same published indices. -/
theorem drivers_refine_cluster [LawfulBincode] (run : Reachable m Orderly d) :
    ∃ c, WalKv.Reachable m WalKv.Orderly c ∧
      (∀ n ∈ m.members, (∃ lease, d.core n = { c.core n with lease }) ∧
        (d.node n).commitTx = (c.server n).commitTx) ∧
      d.voteCalls = c.voteCalls ∧ d.voteAnswers = c.voteAnswers ∧
      d.appendCalls = c.appendCalls ∧ d.appendAnswers = c.appendAnswers := by
  obtain ⟨c, reached, dep⟩ := reachable_deployed run
  refine ⟨c, reached, ?_, dep.voteCalls, dep.voteAnswers, dep.appendCalls, dep.appendAnswers⟩
  intro n member
  exact ⟨(dep.node n member).core, (dep.node n member).commitTx⟩

/-- Drivers agree. No two of them lead in one term, and where both know an entry to be committed and
have not compacted it away they have the same one. -/
theorem drivers_agree [LawfulBincode] (run : Reachable m Orderly d) {k : Nat} (left : n ∈ m.members)
    (right : k ∈ m.members) :
    ((d.core n).role = .leader → (d.core k).role = .leader →
      (d.core n).hard.currentTerm = (d.core k).hard.currentTerm → n = k) ∧
    ∀ i, (d.core n).snapshot.lastIncludedIndex < i → (d.core k).snapshot.lastIncludedIndex < i →
      i ≤ (d.core n).commitIndex → i ≤ (d.core k).commitIndex →
      ∃ entry, (d.core n).entryAt i = some entry ∧ (d.core k).entryAt i = some entry := by
  obtain ⟨c, _, dep⟩ := reachable_deployed run
  obtain ⟨a, rel⟩ := dep.refines
  obtain ⟨_, same⟩ := (dep.node n left).core
  obtain ⟨_, same'⟩ := (dep.node k right).core
  rw [core, core, same, same']
  constructor
  · intro leads leads' terms
    obtain ⟨first, elected, rfl, term⟩ := rel.elections.leads n left leads
    obtain ⟨second, elected', rfl, term'⟩ := rel.elections.leads k right leads'
    exact rel.elections.unique elected elected' (term.trans (terms.trans term'.symm))
  · intro i above above' within within'
    obtain ⟨x, found, t, j, commits, reached, stored⟩ := rel.committed_entry left above within
    obtain ⟨y, found', u, l, commits', reached', stored'⟩ := rel.committed_entry right above' within'
    have agree := Consensus.commits_agree rel.invariant commits commits' reached reached'
    rw [stored, stored'] at agree
    cases agree
    exact ⟨x, found, found'⟩

end Runs

/-- Every driver has just been started on an empty directory. -/
def started (m : Membership) (clock : Clock) : Deployment where
  node n := ⟨bootCore m clock n, Store.opened (m.config n).snapshotThreshold [], 0, [.tick], [], [], []⟩
  inFlight _ := []
  voteCalls := []
  voteAnswers := []
  appendCalls := []
  appendAnswers := []

theorem started_initial [Bincode] (m : Membership) (clock : Clock) (timed : ∀ n ∈ m.members,
    asMillis (m.config n).electionTimeout.start < asMillis (m.config n).electionTimeout.stop) :
    Initial m (started m clock) where
  node n member := by
    have restored : restore clock (m.config n) HardFile.absent default FlatLog.empty =
        .ok (bootCore m clock n) := restore_eq rfl rfl (timed n member)
    refine ⟨clock, ?_⟩
    show (restore clock (m.config n) HardFile.absent default FlatLog.empty >>= _) = _
    rw [restored]
    rfl
  inFlight _ _ := rfl
  voteCalls := rfl
  voteAnswers := rfl
  appendCalls := rfl
  appendAnswers := rfl

/-- Node 1 wins, and a client's proposal starts while the run loop's broadcast is on its way. Both
threads take a batch, and the run loop publishes the older one last. -/
def crossing : List Action :=
  [.drive 1 (.tick 1000000000), .campaign 1 ⟨0, 0⟩, .requestVote ⟨1, 2, ⟨1, 1, 0, 0⟩⟩ ⟨0, 0⟩,
    .vote ⟨2, 1, 1, ⟨1, true⟩⟩, .drive 1 (.take 0),
    .drive 1 (.tick 1000000000), .broadcast 1 0, .build 1 0 2,
    .drive 1 (.propose (.put [1] [2])), .build 1 0 3,
    .appendEntries ⟨1, 2, ⟨1, 1, 0, 0, [⟨1, 1, .noop⟩], 0⟩⟩ ⟨0, 0⟩,
    .reply 1 0 ⟨1, 2, ⟨1, 1, 0, 0, [⟨1, 1, .noop⟩], 0⟩⟩ ⟨1, true, 0⟩, .drive 1 (.replyLost 0 3),
    .drive 1 (.broadcastOver 0 0), .broadcast 1 1, .build 1 1 2, .build 1 1 3, .drive 1 (.take 0),
    .appendEntries ⟨1, 2, ⟨1, 1, 1, 1, [⟨1, 2, .put [1] [2]⟩], 1⟩⟩ ⟨0, 0⟩,
    .reply 1 1 ⟨1, 2, ⟨1, 1, 1, 1, [⟨1, 2, .put [1] [2]⟩], 1⟩⟩ ⟨1, true, 0⟩,
    .drive 1 (.replyLost 1 3), .drive 1 (.broadcastOver 1 0), .drive 1 (.take 1),
    .drive 1 (.store 0), .drive 1 (.store 1), .drive 1 (.publish 1), .drive 1 (.publish 0)]

theorem drivers_refine_cluster_crossing : ∃ d c, Reachable trio Orderly d ∧
    (d.core 1).commitIndex = 2 ∧ (d.node 1).commitTx = 1 ∧
    WalKv.Reachable trio WalKv.Orderly c ∧ (c.core 1).commitIndex = 2 ∧
    (c.server 1).commitTx = 1 := by
  have ran : ((execute (step trio) Orderly (started trio ⟨0, 0⟩) crossing).any fun d =>
      decide ((d.core 1).commitIndex = 2 ∧ (d.node 1).commitTx = 1)) = true := by
    decide +kernel
  obtain ⟨d, reached, shown⟩ := execute_shows ran
  obtain ⟨commit, published⟩ := of_decide_eq_true shown
  have run : Reachable trio Orderly d := ⟨_, started_initial trio ⟨0, 0⟩ trio_timed, reached⟩
  obtain ⟨c, reached, nodes, _⟩ := drivers_refine_cluster run
  obtain ⟨⟨lease, same⟩, commitTx⟩ := nodes 1 (by decide)
  refine ⟨d, c, run, commit, published, reached, ?_, commitTx.symm.trans published⟩
  rw [same] at commit
  exact commit

theorem drivers_agree_crossing : ∃ d, Reachable trio Orderly d ∧
    ∃ entry, (d.core 1).entryAt 1 = some entry ∧ (d.core 2).entryAt 1 = some entry := by
  have ran : ((execute (step trio) Orderly (started trio ⟨0, 0⟩) crossing).any fun d =>
      decide ((d.core 1).snapshot.lastIncludedIndex = 0 ∧ (d.core 2).snapshot.lastIncludedIndex = 0 ∧
        (d.core 1).commitIndex = 2 ∧ (d.core 2).commitIndex = 1)) = true := by
    decide +kernel
  obtain ⟨d, reached, shown⟩ := execute_shows ran
  obtain ⟨first, second, ahead, behind⟩ := of_decide_eq_true shown
  have run : Reachable trio Orderly d := ⟨_, started_initial trio ⟨0, 0⟩ trio_timed, reached⟩
  refine ⟨d, run, ?_⟩
  exact (drivers_agree run (by decide : 1 ∈ trio.members) (by decide : 2 ∈ trio.members)).2 1
    (by omega) (by omega) (by omega) (by omega)

end Deployment
end WalKv
