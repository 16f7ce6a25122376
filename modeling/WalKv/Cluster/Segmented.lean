import WalKv.Raft.FailedReplication
import WalKv.Raft.Interchange
import WalKv.Raft.Restart
import WalKv.Cluster.Updates

/-! The cluster on its disks. The nodes of the cluster keep their write-ahead logs as lists of
records; here every node also runs on a segmented log in a directory of its own, and is given the
same calls. However the cluster runs, compaction and restarts included, what leaves the core is the
same in every call, and so is all of its state but the log. -/
namespace WalKv
open RaftCore Transition

/-- What leaves a core in a call. -/
inductive Output where
  | campaign (result : Except Stop RequestVoteArgs)
  | vote (result : Except Stop RequestVoteReply)
  | append (result : Except Stop LogEntry)
  | reply (result : Except Stop AppendEntriesReply)
  | request (args : AppendEntriesArgs)
  | batch (entries : List LogEntry)
  | done (result : Except Stop Unit)

/-- Logs that can be closed and opened again, with the size limit of a segment. -/
class Reopen (W : Type) where
  reopen : Nat → W → Except Stop W

instance : Reopen FlatLog := ⟨fun _ log => .ok log⟩

instance [Checksum] : Reopen Log := ⟨fun maxSegmentBytes log => (Log.open maxSegmentBytes log.dir).1⟩

section Calls
variable {W : Type}

def returning {α : Type} (output : Except Stop α → Output) (ended : Except Stop α × RaftCore W) :
    Output × RaftCore W :=
  (output ended.1, ended.2)

variable [WalOps W] [Reopen W] [Bincode]

/-- The node closed between two calls and started again on what it has on disk. -/
def RaftCore.reboot (clock : Clock) (cfg : Config) (snapshot : SnapshotMeta) (core : RaftCore W) :
    Except Stop (RaftCore W) := do
  let log ← Reopen.reopen cfg.segmentMaxBytes core.log
  RaftCore.restore clock cfg core.hardPath snapshot log

/-- What a node that starts again runs on. If it cannot start it is as it was. -/
def RaftCore.rebooted (clock : Clock) (cfg : Config) (snapshot : SnapshotMeta) (core : RaftCore W) :
    Output × RaftCore W :=
  match core.reboot clock cfg snapshot with
  | .ok core => (.done (.ok ()), core)
  | .error stop => (.done (.error stop), core)

/-- What an action of the cluster asks of the acting node's core. -/
def Action.call (m : Membership) (c : Cluster) (core : RaftCore W) : Action → Output × RaftCore W
  | .timeout _ clock => returning .campaign (becomeCandidate clock core)
  | .requestVote call clock => returning .vote (handleRequestVote clock call.args core)
  | .voteAnswer answer =>
    match (c.server answer.candidate).campaign with
    | some campaign =>
      if core.hard.currentTerm < answer.reply.term then
        returning .done (becomeFollower answer.reply.term none core)
      else if core.role ≠ .candidate ∨ core.hard.currentTerm ≠ campaign.term then
        (.done (.ok ()), core)
      else if answer.reply.voteGranted = true ∧ core.quorum ≤ campaign.votes + 1 then
        returning .append (appendLeading .noop core.becomeLeader)
      else (.done (.ok ()), core)
    | none => (.done (.ok ()), core)
  | .propose _ command => returning .append (appendLeading command core)
  | .build _ peer => (.request (core.buildAppendEntries peer), core)
  | .appendEntries call clock => returning .reply (handleAppendEntries clock call.args core)
  | .appendAnswer answer =>
    if core.hard.currentTerm < answer.reply.term then
      returning .done (becomeFollower answer.reply.term none core)
    else if core.role ≠ .leader ∨ core.hard.currentTerm ≠ answer.term then (.done (.ok ()), core)
    else (.done (.ok ()), core.onAppendEntriesReply answer.peer answer.lastSent answer.reply)
  | .take _ => (.batch core.takeCommitted.1, core.takeCommitted.2)
  | .compact _ index => returning .done (RaftCore.compact ⟨index, (core.termAt index).getD 0⟩ core)
  | .crash n clock => core.rebooted clock (m.config n) core.snapshot
  | .crashUncompacted n clock index =>
    core.rebooted clock (m.config n) ⟨index, (core.termAt index).getD 0⟩
  | .publish .. | .acknowledge .. | .deadlineExceeded .. | .interrupt .. => (.done (.ok ()), core)

end Calls

/-- A cluster, and every node of it on a segmented log. -/
structure Hosting where
  cluster : Cluster
  real : Nat → RaftCore Log

/-- Commands are within the record limit. -/
def Small [Bincode] (c : Cluster) : Action → Prop
  | .propose n command => ∀ bytes, Bincode.serialize
      ⟨(c.core n).hard.currentTerm, (c.core n).lastLogIndex + 1, command⟩ = .ok bytes →
        bytes.length ≤ maxRecordLen
  | _ => True

instance [Bincode] (c : Cluster) (action : Action) : Decidable (Small c action) :=
  match action with
  | .propose n command =>
    match encoded : Bincode.serialize
      (⟨(c.core n).hard.currentTerm, (c.core n).lastLogIndex + 1, command⟩ : LogEntry) with
    | .ok bytes => decidable_of_iff (bytes.length ≤ maxRecordLen)
      ⟨fun fits _ same => Except.ok.inj (encoded.symm.trans same) ▸ fits,
        fun small => small bytes encoded⟩
    | .error _ => .isTrue fun _ same => by
      rw [encoded] at same
      cases same
  | .timeout .. | .requestVote .. | .voteAnswer _ | .build .. | .appendEntries .. | .appendAnswer _
  | .take _ | .publish .. | .acknowledge .. | .deadlineExceeded .. | .compact .. | .crash ..
  | .crashUncompacted .. | .interrupt .. => .isTrue trivial

section Runs
variable [Checksum] [Bincode] {m : Membership} {c : Cluster} {a : Spec} {e : Effect}
  {action : Action} {log : Log}

theorem RaftCore.Alike.recordable {core : Core} (alike : core.Alike log) :
    ∀ e ∈ core.entries, Recordable Log e := by
  obtain ⟨l, grounded, _, flatLog, shown, backs, reaches⟩ := alike
  obtain ⟨lead, active, _, _, _, records, _⟩ := shown
  have positive := backs.positive
  have reaches : flatLog.firstIndex ≤ core.snapshot.lastIncludedIndex + 1 := reaches
  intro e member
  rw [grounded.holds.entries] at member
  have above : e ∈ l.drop (flatLog.firstIndex - 1) :=
    (List.drop_sublist_drop_left l (by omega)).subset member
  obtain ⟨bytes, recorded, encoded⟩ := forall₂_mem backs.records.flip above
  rw [← records] at recorded
  obtain ⟨chunk, _, inside⟩ := List.mem_flatMap.mp recorded
  exact ⟨bytes, encoded, chunk.fits bytes inside⟩

/-- The same leaves the core on both logs, and it is then as given but for the log. -/
def Called (core : Core) (onFlat : Output × Core) (onReal : Output × RaftCore Log) : Prop :=
  ∃ output log', onFlat = (output, core) ∧ onReal = (output, core.on log') ∧ core.Alike log'

theorem RaftCore.Matches.called {α : Type} {onFlat : Except Stop α × Core}
    {onReal : Except Stop α × RaftCore Log} (same : Matches onFlat onReal)
    (output : Except Stop α → Output) :
    Called onFlat.2 (returning output onFlat) (returning output onReal) := by
  obtain ⟨log', rfl, alike⟩ := same
  exact ⟨_, log', rfl, rfl, alike⟩

theorem RaftCore.Alike.follows {core : Core} (alike : core.Alike log) (running : core.Running)
    {term : Nat} (newer : core.hard.currentTerm < term) :
    Matches (becomeFollower term none core) (becomeFollower term none (core.on log)) := by
  apply alike.oblivious (becomeFollower_on running newer none)
  rw [running.becomeFollower newer]
  exact observe_logPart _ _ _

theorem voteAnswer_called {answer : VoteAnswer} {campaign : Campaign}
    (running : (c.core answer.candidate).Running)
    (runs : (c.server answer.candidate).campaign = some campaign)
    (noop : ∀ term index bytes, Bincode.serialize ⟨term, index, .noop⟩ = .ok bytes →
      bytes.length ≤ maxRecordLen)
    (alike : (c.core answer.candidate).Alike log) :
    Called (voteAnswerEffect answer campaign (c.server answer.candidate)).server.core
      (Action.call m c (c.core answer.candidate) (.voteAnswer answer))
      (Action.call m c ((c.core answer.candidate).on log) (.voteAnswer answer)) := by
  simp only [Action.call, runs]
  unfold voteAnswerEffect
  rw [show (c.server answer.candidate).core = c.core answer.candidate from rfl]
  by_cases newer : (c.core answer.candidate).hard.currentTerm < answer.reply.term
  · have newer' : ((c.core answer.candidate).on log).hard.currentTerm < answer.reply.term := newer
    rw [if_pos newer, if_pos newer, if_pos newer']
    exact (alike.follows running newer).called .done
  · have newer' : ¬ ((c.core answer.candidate).on log).hard.currentTerm < answer.reply.term := newer
    rw [if_neg newer, if_neg newer, if_neg newer']
    by_cases late : (c.core answer.candidate).role ≠ .candidate ∨
        (c.core answer.candidate).hard.currentTerm ≠ campaign.term
    · have late' : ((c.core answer.candidate).on log).role ≠ .candidate ∨
        ((c.core answer.candidate).on log).hard.currentTerm ≠ campaign.term := late
      rw [if_pos late, if_pos late, if_pos late']
      exact ⟨_, log, rfl, rfl, alike⟩
    · have late' : ¬ (((c.core answer.candidate).on log).role ≠ .candidate ∨
        ((c.core answer.candidate).on log).hard.currentTerm ≠ campaign.term) := late
      rw [if_neg late, if_neg late, if_neg late']
      by_cases wins : answer.reply.voteGranted = true ∧
          (c.core answer.candidate).quorum ≤ campaign.votes + 1
      · have wins' : answer.reply.voteGranted = true ∧
          ((c.core answer.candidate).on log).quorum ≤ campaign.votes + 1 := wins
        rw [if_pos wins, if_pos wins', if_pos wins.1, if_pos wins.2]
        have elected : (c.core answer.candidate).becomeLeader.Alike log := alike.congr rfl rfl rfl
        exact (elected.appendLeading fun bytes encoded =>
          ⟨trivial, noop _ _ bytes encoded⟩).called .append
      · have wins' : ¬ (answer.reply.voteGranted = true ∧
          ((c.core answer.candidate).on log).quorum ≤ campaign.votes + 1) := wins
        rw [if_neg wins, if_neg wins']
        have core : (if answer.reply.voteGranted = true then
            if (c.core answer.candidate).quorum ≤ campaign.votes + 1 then
              winEffect (c.server answer.candidate)
            else { server := { c.server answer.candidate with
              campaign := some (campaign.heard answer.voter 1) } }
          else { server := { c.server answer.candidate with
            campaign := some (campaign.heard answer.voter 0) } } : Effect).server.core =
              c.core answer.candidate := by
          by_cases granted : answer.reply.voteGranted = true
          · rw [if_pos granted, if_neg fun enough => wins ⟨granted, enough⟩]
          · rw [if_neg granted]
        rw [core]
        exact ⟨_, log, rfl, rfl, alike⟩

theorem appendAnswer_called {answer : AppendAnswer} (running : (c.core answer.leader).Running)
    (alike : (c.core answer.leader).Alike log) :
    Called (appendAnswerEffect answer (c.server answer.leader)).server.core
      (Action.call m c (c.core answer.leader) (.appendAnswer answer))
      (Action.call m c ((c.core answer.leader).on log) (.appendAnswer answer)) := by
  simp only [Action.call]
  unfold appendAnswerEffect
  rw [show (c.server answer.leader).core = c.core answer.leader from rfl]
  by_cases newer : (c.core answer.leader).hard.currentTerm < answer.reply.term
  · have newer' : ((c.core answer.leader).on log).hard.currentTerm < answer.reply.term := newer
    rw [if_pos newer, if_pos newer, if_pos newer']
    exact (alike.follows running newer).called .done
  · have newer' : ¬ ((c.core answer.leader).on log).hard.currentTerm < answer.reply.term := newer
    rw [if_neg newer, if_neg newer, if_neg newer']
    by_cases late : (c.core answer.leader).role ≠ .leader ∨
        (c.core answer.leader).hard.currentTerm ≠ answer.term
    · have late' : ((c.core answer.leader).on log).role ≠ .leader ∨
        ((c.core answer.leader).on log).hard.currentTerm ≠ answer.term := late
      rw [if_pos late, if_pos late, if_pos late']
      exact ⟨_, log, rfl, rfl, alike⟩
    · have late' : ¬ (((c.core answer.leader).on log).role ≠ .leader ∨
        ((c.core answer.leader).on log).hard.currentTerm ≠ answer.term) := late
      rw [if_neg late, if_neg late, if_neg late', onAppendEntriesReply_on]
      refine ⟨_, log, rfl, rfl, ?_⟩
      obtain ⟨_, _, same | same⟩ :=
        onAppendEntriesReply_cases answer.peer answer.lastSent answer.reply (c.core answer.leader)
      · rw [same]
        exact alike.congr rfl rfl rfl
      · rw [same, advanceCommitIndex_eq]
        exact alike.congr rfl rfl rfl

theorem RaftCore.Alike.reboot [LawfulBincode] {core : Core} {cfg : Config} (alike : core.Alike log)
    (clock : Clock) {snapshot : SnapshotMeta}
    (above : core.snapshot.lastIncludedIndex ≤ snapshot.lastIncludedIndex)
    (within : snapshot.lastIncludedIndex ≤ core.lastLogIndex)
    (stamped : core.termAt snapshot.lastIncludedIndex = some snapshot.lastIncludedTerm)
    (timed : asMillis cfg.electionTimeout.start < asMillis cfg.electionTimeout.stop) :
    ∃ core' log', core.reboot clock cfg snapshot = .ok core' ∧
      (core.on log).reboot clock cfg snapshot = .ok (core'.on log') ∧ core'.Alike log' := by
  obtain ⟨l, ⟨holds, flatLog, shown, backs, reaches⟩, holds', flatLog', shown', backs', reaches'⟩ := alike
  rw [holds.lastLogIndex] at within
  rw [holds.termAt above within] at stamped
  have based := (Option.some.inj stamped).symm
  have covered {first : Nat} (reaches : first ≤ core.snapshot.lastIncludedIndex + 1) :
      first ≤ snapshot.lastIncludedIndex + 1 := reaches.trans (Nat.succ_le_succ above)
  obtain ⟨log', reopened, again⟩ := shown'.reopen cfg.segmentMaxBytes
  have again : Journal.Shows log' flatLog' false := again
  refine ⟨_, log', Grounded.restore shown backs (covered reaches) timed, ?_, l, ?_, ?_⟩
  · rw [RaftCore.reboot, show Reopen.reopen cfg.segmentMaxBytes (core.on log).log = .ok log' from reopened]
    exact Grounded.restore again backs' (covered reaches') timed
  · exact ⟨⟨within, rfl, holds.indexed, based⟩, flatLog, shown, backs, covered reaches⟩
  · exact ⟨⟨within, rfl, holds.indexed, based⟩, flatLog', again, backs', covered reaches'⟩

theorem restart_called [LawfulBincode] {n : Nat} {clock : Clock} {snapshot : SnapshotMeta}
    (alike : (c.core n).Alike log)
    (above : (c.core n).snapshot.lastIncludedIndex ≤ snapshot.lastIncludedIndex)
    (within : snapshot.lastIncludedIndex ≤ (c.core n).lastLogIndex)
    (stamped : (c.core n).termAt snapshot.lastIncludedIndex = some snapshot.lastIncludedTerm)
    (restarted : restart m clock n (c.core n).hardPath snapshot (c.core n).log = some e) :
    Called e.server.core ((c.core n).rebooted clock (m.config n) snapshot)
      (((c.core n).on log).rebooted clock (m.config n) snapshot) := by
  obtain ⟨core, restored, rfl⟩ := restart_ok restarted
  obtain ⟨_, _, _, _, timed, _⟩ := restore_ok restored
  obtain ⟨core', log', onFlat, onReal, alike'⟩ := alike.reboot clock above within stamped timed
  have same : core' = core := Except.ok.inj (onFlat.symm.trans restored)
  subst same
  refine ⟨.done (.ok ()), log', ?_, ?_, alike'⟩
  · simp only [RaftCore.rebooted, onFlat]
    rfl
  · simp only [RaftCore.rebooted, onReal]
    rfl

theorem effect_called [LawfulBincode] (rel : Refines m c a) (member : action.node ∈ m.members)
    (clean : CleanCrash action) (small : Small c action)
    (noop : ∀ term index bytes, Bincode.serialize ⟨term, index, .noop⟩ = .ok bytes →
      bytes.length ≤ maxRecordLen)
    (sent : ∀ call ∈ c.appendCalls, ∀ e ∈ call.args.entries, Recordable Log e)
    (alike : (c.core action.node).Alike log) (acted : effect m c action = some e) :
    Called e.server.core (action.call m c (c.core action.node))
      (action.call m c ((c.core action.node).on log)) := by
  have running := (rel.elections.node action.node member).running
  have stands := rel.node action.node member
  cases effect_acts acted with
  | timeout n clock =>
    have running : (c.core n).Running := running
    have alike : (c.core n).Alike log := alike
    have same : Matches (becomeCandidate clock (c.core n)) (becomeCandidate clock ((c.core n).on log)) :=
      alike.oblivious (becomeCandidate_on running) (by rw [running.becomeCandidate]; rfl)
    have core : (timeoutEffect clock (c.server n)).server.core =
        (becomeCandidate clock (c.core n)).2 := by
      simp only [timeoutEffect, running.becomeCandidate]
    rw [core]
    exact same.called .campaign
  | @requestVote call clock =>
    have running : (c.core call.dst).Running := running
    have alike : (c.core call.dst).Alike log := alike
    have same : Matches (handleRequestVote clock call.args (c.core call.dst))
        (handleRequestVote clock call.args ((c.core call.dst).on log)) := by
      apply alike.oblivious (handleRequestVote_on running call.args)
      rw [running.handleRequestVote]
      split_ifs
      · rfl
      · exact observe_logPart _ _ _
      · exact observe_logPart _ _ _
    have core : (requestVoteEffect call clock (c.server call.dst)).server.core =
        (handleRequestVote clock call.args (c.core call.dst)).2 := by
      unfold requestVoteEffect
      split <;> rename_i ran <;> exact (congrArg Prod.snd ran).symm
    rw [core]
    exact same.called .vote
  | @voteAnswer answer campaign runs => exact voteAnswer_called running runs noop alike
  | propose n command =>
    have same : Matches (appendLeading command (c.core n)) (appendLeading command ((c.core n).on log)) :=
      alike.appendLeading fun bytes encoded => ⟨trivial, small bytes encoded⟩
    have core : (proposeEffect command (c.server n)).server.core =
        (appendLeading command (c.core n)).2 := by
      unfold proposeEffect
      split <;> rename_i ran <;> exact (congrArg Prod.snd ran).symm
    rw [core]
    exact same.called .append
  | build => exact ⟨_, log, rfl, rfl, alike⟩
  | publish | acknowledge | deadlineExceeded => exact ⟨_, log, rfl, rfl, alike⟩
  | @appendEntries call clock listed =>
    have running : (c.core call.dst).Running := running
    have alike : (c.core call.dst).Alike log := alike
    have shown := rel.sent call listed
    have same : Matches (handleAppendEntries clock call.args (c.core call.dst))
        (handleAppendEntries clock call.args ((c.core call.dst).on log)) := by
      apply alike.handleAppendEntries running (shown.contiguous rel)
      intro e among
      obtain ⟨bytes, encoded, fits⟩ := sent call listed e among
      exact ⟨⟨bytes, encoded, trivial⟩, bytes, encoded, fits⟩
    have core : (appendEntriesEffect call clock (c.server call.dst)).server.core =
        (handleAppendEntries clock call.args (c.core call.dst)).2 := by
      unfold appendEntriesEffect
      split <;> rename_i ran <;> exact (congrArg Prod.snd ran).symm
    rw [core]
    exact same.called .reply
  | @appendAnswer answer => exact appendAnswer_called running alike
  | take n =>
    have alike : (c.core n).Alike log := alike
    have taken : (c.core n).takeCommitted = _ := rel.takeCommitted member
    have side : ((c.core n).on log).takeCommitted =
        ((c.core n).takeCommitted.1, (c.core n).takeCommitted.2.on log) := takeLoop_on _ _ _
    refine ⟨.batch (c.core n).takeCommitted.1, log, rfl, ?_, ?_⟩
    · simp only [Action.call, show (Action.take n).node = n from rfl, side]
      rfl
    · show (c.core n).takeCommitted.2.Alike log
      rw [taken]
      exact alike.congr rfl rfl rfl
  | @compact n index applied =>
    have alike : (c.core n).Alike log := alike
    have stands : Stands a n (c.core n) := stands
    have applied : index ≤ (c.core n).lastApplied := applied
    have order := stands.applied
    have known := (rel.known n).within rel.invariant
    rw [stands.commit] at known
    have within : index ≤ (c.core n).lastLogIndex := by
      rw [stands.sound.holds.lastLogIndex]
      omega
    exact (alike.compact within).called .done
  | @crash n clock e restarted =>
    have stands : Stands a n (c.core n) := stands
    have holds := stands.sound.holds
    have stamped : (c.core n).termAt (c.core n).snapshot.lastIncludedIndex =
        some (c.core n).snapshot.lastIncludedTerm := by
      rw [holds.termAt le_rfl holds.compacted, ← holds.based]
    exact restart_called alike le_rfl (holds.compacted.trans holds.lastLogIndex.ge) stamped restarted
  | @crashUncompacted n clock index e newer applied restarted =>
    have stands : Stands a n (c.core n) := stands
    have applied : index ≤ (c.core n).lastApplied := applied
    have order := stands.applied
    have known := (rel.known n).within rel.invariant
    rw [stands.commit] at known
    have holds := stands.sound.holds
    have stamped := holds.termAt newer.le (show index ≤ (a.log n).length by omega)
    have within : index ≤ (c.core n).lastLogIndex := by
      rw [holds.lastLogIndex]
      omega
    refine restart_called alike newer.le within ?_ restarted
    exact stamped.trans (congrArg some (congrArg (Option.getD · 0) stamped).symm)
  | interrupt => exact clean.elim

end Runs

namespace Hosting
section Runs
variable [Checksum] [Bincode] (m : Membership)

/-- The acting node is given the call on its segmented log, too. -/
def step (s : Hosting) (action : Action) : Option Hosting :=
  (WalKv.step m s.cluster action).map fun cluster =>
    ⟨cluster, Function.update s.real action.node
      (action.call m s.cluster (s.real action.node)).2⟩

/-- Every node is started on an empty directory. -/
structure Initial (path : Nat → String) (s : Hosting) : Prop where
  cluster : WalKv.Initial m s.cluster
  started : ∀ n ∈ m.members, ∃ clock log core,
    (Log.open (m.config n).segmentMaxBytes (Dir.empty (path n))).1 = .ok log ∧
    RaftCore.restore clock (m.config n) HardFile.absent default FlatLog.empty = .ok core ∧
    s.cluster.server n = Server.fresh core ∧
    RaftCore.restore clock (m.config n) HardFile.absent default log = .ok (s.real n)

def Reachable (path : Nat → String) (guard : Cluster → Action → Prop) (s : Hosting) : Prop :=
  ∃ start, Initial m path start ∧ Reaches (step m) (fun s => guard s.cluster) start s

variable {m} {s s' : Hosting} {path : Nat → String} {a : Spec} {action : Action}

/-- Every node is the same on both its logs, and what was sent can be written. -/
structure Aligned (m : Membership) (s : Hosting) : Prop where
  node : ∀ n ∈ m.members, ∃ log, s.real n = (s.cluster.core n).on log ∧ (s.cluster.core n).Alike log
  sent : ∀ call ∈ s.cluster.appendCalls, ∀ x ∈ call.args.entries, Recordable Log x

theorem aligned_initial (start : Initial m path s) : Aligned m s where
  node n member := by
    obtain ⟨clock, log, core, opened, flat, server, real⟩ := start.started n member
    obtain ⟨log', opened', shown⟩ := Log.shows_empty (path n) (m.config n).segmentMaxBytes
    cases opened.symm.trans opened'
    obtain ⟨_, _, read, loaded, timed, rfl⟩ := restore_ok flat
    obtain ⟨_, _, read', loaded', _, real⟩ := restore_ok real
    have readback : WalOps.readAll log = .ok FlatLog.empty.readAll := congrArg Prod.fst shown.readAll
    cases read
    cases loaded
    cases readback.symm.trans read'
    cases loaded'
    refine ⟨log, ?_, [], ?_, ?_⟩
    · rw [real, Cluster.core, server]
      rfl
    · rw [Cluster.core, server]
      exact ⟨⟨le_rfl, rfl, .nil, rfl⟩, FlatLog.empty, rfl, ⟨le_rfl, le_rfl, .nil⟩, le_rfl⟩
    · rw [Cluster.core, server]
      exact ⟨⟨le_rfl, rfl, .nil, rfl⟩, FlatLog.empty, shown, ⟨le_rfl, le_rfl, .nil⟩, le_rfl⟩
  sent call sent := by simp [start.cluster.appendCalls] at sent

theorem Aligned.recordable (aligned : Aligned m s) {x : LogEntry} (held : s.cluster.Has m x) :
    Recordable Log x := by
  rcases held with ⟨n, member, inside⟩ | ⟨call, listed, carried⟩
  · obtain ⟨log, _, alike⟩ := aligned.node n member
    exact alike.recordable x inside
  · exact aligned.sent call listed x carried

section Step
variable [LawfulBincode]
  (noop : ∀ term index bytes, Bincode.serialize ⟨term, index, .noop⟩ = .ok bytes →
    bytes.length ≤ maxRecordLen)

include noop in
theorem Aligned.called (aligned : Aligned m s) (rel : Refines m s.cluster a)
    (clean : CleanCrash action) (small : Small s.cluster action)
    {cluster : Cluster} (stepped : WalKv.step m s.cluster action = some cluster) :
    Called (cluster.core action.node) (action.call m s.cluster (s.cluster.core action.node))
      (action.call m s.cluster (s.real action.node)) := by
  obtain ⟨member, e, acted, rfl⟩ := step_ok stepped
  obtain ⟨log, same, alike⟩ := aligned.node action.node member
  rw [same, s.cluster.apply_core_self]
  exact effect_called rel member clean small noop aligned.sent alike acted

include noop in
theorem Aligned.step (aligned : Aligned m s) (rel : Refines m s.cluster a)
    (clean : CleanCrash action) (small : Small s.cluster action)
    (stepped : s.step m action = some s') : Aligned m s' := by
  obtain ⟨cluster, moved, rfl⟩ := Option.map_eq_some_iff.mp stepped
  obtain ⟨output, log, _, onReal, alike⟩ := aligned.called noop rel clean small moved
  obtain ⟨member, e, acted, rfl⟩ := step_ok moved
  obtain ⟨fresh, sourced, _⟩ := effect_sourced rel member clean acted
  constructor
  · intro n other
    by_cases acting : n = action.node
    · subst acting
      refine ⟨log, ?_, alike⟩
      simp only [Function.update_self, onReal]
    · simp only [Function.update_of_ne acting, s.cluster.apply_core_other e acting]
      exact aligned.node n other
  · intro call listed x carried
    rcases List.mem_append.mp listed with before | new
    · exact aligned.sent call before x carried
    · exact aligned.recordable (sourced.sent call new x carried)

include noop in
theorem reachable_aligned (run : Reachable m path (fun c action => Orderly c action ∧ Small c action) s) :
    (∃ a, Refines m s.cluster a) ∧ Aligned m s := by
  obtain ⟨start, initial, run⟩ := run
  refine run.invariant (P := fun s => (∃ a, Refines m s.cluster a) ∧ Aligned m s)
    ⟨⟨_, refines_initial initial.cluster⟩, aligned_initial initial⟩ ?_
  rintro before after action ⟨⟨a, rel⟩, aligned⟩ ⟨⟨leading, served, clean⟩, small⟩ stepped
  refine ⟨?_, aligned.step noop rel clean small stepped⟩
  obtain ⟨cluster, moved, rfl⟩ := Option.map_eq_some_iff.mp stepped
  exact refines_step rel leading served clean moved

end Step

theorem hosted {guard : Cluster → Action → Prop} {c : Cluster}
    (run : Reaches (WalKv.step m) guard s.cluster c) :
    ∃ s', Reaches (step m) (fun s => guard s.cluster) s s' ∧ s'.cluster = c := by
  induction run with
  | refl => exact ⟨s, .refl, rfl⟩
  | @next before after action _ allowed stepped ih =>
    obtain ⟨t, reached, rfl⟩ := ih
    exact ⟨_, .next action reached allowed (Option.map_eq_some_iff.mpr ⟨after, stepped, rfl⟩), rfl⟩

theorem boot_hosted (path : Nat → String) (clock : Clock) (timed : ∀ n ∈ m.members,
    asMillis (m.config n).electionTimeout.start < asMillis (m.config n).electionTimeout.stop) :
    ∃ s, Initial m path s ∧ s.cluster = boot m clock := by
  choose log opened shown using fun n => Log.shows_empty (path n) (m.config n).segmentMaxBytes
  refine ⟨⟨boot m clock, fun n => (bootCore m clock n).on (log n)⟩, ⟨boot_initial m clock timed, ?_⟩, rfl⟩
  intro n member
  have read : WalOps.readAll (log n) = .ok FlatLog.empty.readAll := congrArg Prod.fst (shown n).readAll
  exact ⟨clock, log n, bootCore m clock n, opened n, restore_eq rfl rfl (timed n member), rfl,
    restore_eq read rfl (timed n member)⟩

end Runs
end Hosting

/-- The nodes on segmented logs follow the cluster: after any orderly run all of a node's state but
its log is the state of the node in the cluster, and the next call, be it a compaction or a restart
from the directory, gives the same output and the same state on either log. -/
theorem segmented_nodes_follow [Checksum] [Bincode] [LawfulBincode] {m : Membership}
    {path : Nat → String} {s : Hosting}
    (noop : ∀ term index bytes, Bincode.serialize ⟨term, index, .noop⟩ = .ok bytes →
      bytes.length ≤ maxRecordLen)
    (run : s.Reachable m path fun c action => Orderly c action ∧ Small c action) :
    (∀ n ∈ m.members, s.real n = (s.cluster.core n).on (s.real n).log) ∧
    ∀ action cluster, Orderly s.cluster action → Small s.cluster action →
      step m s.cluster action = some cluster →
      ∃ output log, action.call m s.cluster (s.cluster.core action.node) =
          (output, cluster.core action.node) ∧
        action.call m s.cluster (s.real action.node) = (output, (cluster.core action.node).on log) := by
  obtain ⟨⟨a, rel⟩, aligned⟩ := Hosting.reachable_aligned noop run
  constructor
  · intro n member
    obtain ⟨log, same, _⟩ := aligned.node n member
    rw [same]
    rfl
  · intro action cluster orderly small stepped
    obtain ⟨output, log, onFlat, onReal, _⟩ :=
      aligned.called noop rel orderly.2.2 small stepped
    exact ⟨output, log, onFlat, onReal⟩

theorem Fixint.noop_fits (term index : Nat) (bytes : Bytes)
    (encoded : Bincode.serialize ⟨term, index, .noop⟩ = .ok bytes) : bytes.length ≤ maxRecordLen := by
  have encoded : Fixint.serialize ⟨term, index, .noop⟩ = .ok bytes := encoded
  simp only [Fixint.serialize, Fixint.u64, Fixint.command] at encoded
  split_ifs at encoded <;> cases encoded
  simp [LittleEndian.encode_length, maxRecordLen]

/-- Node 1 wins, replicates an update to node 2, hands it out, compacts and restarts. -/
def compacting : List Action :=
  [.timeout 1 ⟨0, 0⟩, .requestVote ⟨1, 2, ⟨1, 1, 0, 0⟩⟩ ⟨0, 0⟩, .voteAnswer ⟨2, 1, 1, ⟨1, true⟩⟩,
    .propose 1 (.put [1] [1]), .build 1 2,
    .appendEntries ⟨1, 2, ⟨1, 1, 0, 0, [⟨1, 1, .noop⟩, ⟨1, 2, .put [1] [1]⟩], 0⟩⟩ ⟨0, 0⟩,
    .appendAnswer ⟨2, 1, 1, 2, ⟨1, true, 0⟩⟩, .take 1, .compact 1 1, .crash 1 ⟨0, 0⟩]

theorem segmented_nodes_follow_compacting : ∃ s : Hosting,
    s.Reachable trio (fun _ => "wal") (fun c action => Orderly c action ∧ Small c action) ∧
    (s.real 1).entries = [⟨1, 2, .put [1] [1]⟩] ∧ (s.real 1).snapshot = ⟨1, 1⟩ := by
  have ran : ((execute (step trio) (fun c action => Orderly c action ∧ Small c action)
      (boot trio ⟨0, 0⟩) compacting).any fun c =>
        (c.core 1).entries == [⟨1, 2, .put [1] [1]⟩] && (c.core 1).snapshot == ⟨1, 1⟩) = true := by
    decide +kernel
  obtain ⟨c, run, shown⟩ := execute_shows ran
  obtain ⟨entries, snapshot⟩ := Bool.and_eq_true_iff.mp shown
  obtain ⟨start, initial, same⟩ := Hosting.boot_hosted (m := trio) (fun _ => "wal") ⟨0, 0⟩ trio_timed
  rw [← same] at run
  obtain ⟨s, hosted, rfl⟩ := Hosting.hosted run
  have reached : s.Reachable trio (fun _ => "wal") fun c action => Orderly c action ∧ Small c action :=
    ⟨start, initial, hosted⟩
  have follows := (segmented_nodes_follow Fixint.noop_fits reached).1 1 (by decide)
  refine ⟨s, reached, ?_, ?_⟩
  · rw [follows]
    exact beq_iff_eq.mp entries
  · rw [follows]
    exact beq_iff_eq.mp snapshot

end WalKv
