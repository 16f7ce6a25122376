import WalKv.Raft.Backing
import WalKv.Raft.Ballot
import WalKv.Raft.Bincode
import WalKv.Transition
import WalKv.Wal.Refinement

/-! A core on its segmented log. The entries in memory are counted from the snapshot,
the records on disk from the first segment that is left, and compaction removes only
whole segments; through all calls and restarts the two stay aligned. -/
namespace WalKv
open Transition

section Records
variable [Checksum] [Bincode]

instance : Journal Log where
  Shows := Log.Shows
  Fits payload := payload.length ≤ maxRecordLen
  append shown fits := by
    obtain ⟨log', appended, shown'⟩ := shown.append fits
    exact ⟨_, log', appended, shown'⟩
  sync := Log.Shows.sync
  truncateSuffix shown cut := by
    obtain ⟨log', truncated, shown', _⟩ := shown.truncateSuffix _
    rw [cut] at truncated shown'
    exact ⟨log', truncated, shown'⟩
  truncatePrefix upTo shown := shown.truncatePrefix upTo
  readAll shown := congrArg Prod.fst shown.readAll

/-- A core, whether it has records that are not synced, and the snapshots that were
taken. -/
structure Node where
  core : RaftCore Log
  unsynced : Bool
  snapshots : List SnapshotMeta

namespace Node
open RaftCore

/-- The snapshot with the highest index. -/
def newest : List SnapshotMeta → SnapshotMeta
  | [] => default
  | snapshot :: rest =>
    if (newest rest).lastIncludedIndex < snapshot.lastIncludedIndex then snapshot else newest rest

inductive Move where
  | command (command : Command)
  | sync
  | appendEntries (clock : Clock) (args : AppendEntriesArgs)
  | requestVote (clock : Clock) (args : RequestVoteArgs)
  | campaign (clock : Clock)
  | lead
  | follow (term : Nat) (leader : Option Nat)
  | reply (peer lastSent : Nat) (reply : AppendEntriesReply)
  | take
  | compact (snapshot : SnapshotMeta)
  | restart (clock : Clock) (cfg : Config)

/-- The node started on an empty directory. -/
def start (path : String) (clock : Clock) (cfg : Config) : Except Stop Node := do
  let log ← (Log.open cfg.segmentMaxBytes (Dir.empty path)).1
  let core ← restore clock cfg HardFile.absent default log
  pure ⟨core, false, []⟩

/-- The node closed and started again on its directory. -/
def restarted (clock : Clock) (cfg : Config) (s : Node) : Except Stop Node := do
  let log ← (Log.open cfg.segmentMaxBytes s.core.log.dir).1
  let core ← restore clock cfg s.core.hardPath (newest s.snapshots) log
  pure { s with core, unsynced := false }

def step (s : Node) : Move → Option Node
  | .command command =>
    match appendCommand command s.core with
    | (.ok _, core) => some { s with core, unsynced := true }
    | (.error _, core) => some { s with core }
  | .sync =>
    match RaftCore.sync s.core with
    | (.ok (), core) => some { s with core, unsynced := false }
    | (.error _, core) => some { s with core }
  | .appendEntries clock args => some { s with core := (handleAppendEntries clock args s.core).2 }
  | .requestVote clock args => some { s with core := (handleRequestVote clock args s.core).2 }
  | .campaign clock => some { s with core := (becomeCandidate clock s.core).2 }
  | .lead => some { s with core := s.core.becomeLeader }
  | .follow term leader => some { s with core := (becomeFollower term leader s.core).2 }
  | .reply peer lastSent reply => some
    { s with core := s.core.onAppendEntriesReply peer lastSent reply }
  | .take => some { s with core := s.core.takeCommitted.2 }
  | .compact snapshot => some
    { s with core := (RaftCore.compact snapshot s.core).2, snapshots := snapshot :: s.snapshots }
  | .restart clock cfg => (s.restarted clock cfg).toOption

/-- Entries are within the record limit; what a request brings is contiguous and does
not contradict what is committed; a snapshot is of an applied entry. Requests are
handled, and the node is closed, only with all records synced. -/
def Allowed (s : Node) : Move → Prop
  | .command command => ∀ bytes, Bincode.serialize
      ⟨s.core.hard.currentTerm, s.core.lastLogIndex + 1, command⟩ = .ok bytes →
        bytes.length ≤ maxRecordLen
  | .appendEntries _ args => s.unsynced = false ∧
    (∀ j e, args.entries[j]? = some e → e.index = args.prevLogIndex + j + 1) ∧
    (∀ e ∈ args.entries, e.index ≤ s.core.commitIndex → ∀ t ∈ s.core.termAt e.index, t = e.term) ∧
    ∀ e ∈ args.entries, Recordable Log e
  | .compact snapshot => 1 ≤ snapshot.lastIncludedIndex ∧
    snapshot.lastIncludedIndex ≤ s.core.lastApplied ∧
    ∀ t ∈ s.core.termAt snapshot.lastIncludedIndex, t = snapshot.lastIncludedTerm
  | .restart _ cfg => s.unsynced = false ∧
    asMillis cfg.electionTimeout.start < asMillis cfg.electionTimeout.stop
  | _ => True

/-- A fact about the encoding, if there is one. -/
def decideEncoded (e : LogEntry) (p : Bytes → Prop) [DecidablePred p] :
    Decidable (∀ bytes, Bincode.serialize e = .ok bytes → p bytes) :=
  match Bincode.serialize e with
  | .ok bytes => decidable_of_iff (p bytes)
    ⟨fun holds _ same => Except.ok.inj same ▸ holds, fun all => all bytes rfl⟩
  | .error _ => .isTrue nofun

instance (e : LogEntry) : Decidable (Recordable Log e) :=
  match encoded : Bincode.serialize e with
  | .ok bytes => decidable_of_iff (bytes.length ≤ maxRecordLen)
    ⟨fun fits => ⟨bytes, encoded, fits⟩, fun ⟨_, same, fits⟩ => by
      rw [encoded] at same
      cases same
      exact fits⟩
  | .error _ => .isFalse fun ⟨_, same, _⟩ => by
    rw [encoded] at same
    cases same

instance (s : Node) (move : Move) : Decidable (s.Allowed move) :=
  match move with
  | .command _ => decideEncoded _ _
  | .appendEntries .. => inferInstanceAs (Decidable (_ ∧ _ ∧ _ ∧ _))
  | .compact _ => inferInstanceAs (Decidable (_ ∧ _ ∧ _))
  | .restart .. => inferInstanceAs (Decidable (_ ∧ _))
  | .sync | .requestVote .. | .campaign _ | .lead | .follow .. | .reply .. | .take => .isTrue trivial

/-- Memory and log agree, and a restart gives the same log back. -/
structure Consistent (s : Node) : Prop where
  positions : ∀ i e, s.core.entries[i]? = some e →
    e.index = s.core.snapshot.lastIncludedIndex + 1 + i
  last : s.core.log.lastIndex = s.core.lastLogIndex
  first : s.core.log.firstIndex ≤ s.core.snapshot.lastIncludedIndex + 1
  cuts : s.unsynced = false → ∀ index, s.core.baseIndex ≤ index →
    (truncateFrom index s.core).1 = .ok ()
  restarts : s.unsynced = false → ∀ clock cfg,
    asMillis cfg.electionTimeout.start < asMillis cfg.electionTimeout.stop →
      ∃ s', s.restarted clock cfg = .ok s' ∧ s'.core.entries = s.core.entries ∧
        (∀ i, s'.core.termAt i = s.core.termAt i) ∧ (∀ i, s'.core.entryAt i = s.core.entryAt i) ∧
        s'.core.lastLogIndex = s.core.lastLogIndex ∧ s'.core.lastLogTerm = s.core.lastLogTerm ∧
        s'.core.hard = s.core.hard

/-- The node stands for the log `l`, of which it has committed and applied a part. -/
structure Intact (s : Node) (l : List LogEntry) : Prop where
  grounded : s.core.Grounded l s.unsynced
  running : s.core.Running
  applied : s.core.snapshot.lastIncludedIndex ≤ s.core.lastApplied
  order : s.core.lastApplied ≤ s.core.commitIndex
  within : s.core.commitIndex ≤ l.length
  newest : newest s.snapshots = s.core.snapshot

namespace Intact
variable {s : Node} {l : List LogEntry}

theorem start {path : String} {clock : Clock} {cfg : Config}
    (started : Node.start path clock cfg = .ok s) : s.Intact [] := by
  obtain ⟨log, opened, shown⟩ := Log.shows_empty path cfg.segmentMaxBytes
  obtain ⟨_, again, started⟩ := Except.of_bind_ok started
  cases again.symm.trans opened
  obtain ⟨core, restored, started⟩ := Except.of_bind_ok started
  cases started
  obtain ⟨records, entries, read, loaded, timed, rfl⟩ := restore_ok restored
  have read' : WalOps.readAll log = .ok FlatLog.empty.readAll := congrArg Prod.fst shown.readAll
  rw [read'] at read
  cases read
  cases loaded
  refine ⟨⟨⟨Nat.zero_le _, rfl, .nil, rfl⟩, FlatLog.empty, shown, ⟨le_rfl, le_rfl, .nil⟩, le_rfl⟩,
    ⟨rfl, rfl, timed⟩, le_rfl, le_rfl, le_rfl, rfl⟩

theorem keep (intact : s.Intact l) {core : RaftCore Log} (running : core.Running)
    (same : core.logPart = s.core.logPart) : ({ s with core } : Node).Intact l := by
  simp only [logPart, Prod.mk.injEq] at same
  obtain ⟨log, entries, snapshot, commit, applied⟩ := same
  exact ⟨intact.grounded.congr snapshot entries log, running,
    by rw [applied, snapshot]; exact intact.applied, by rw [applied, commit]; exact intact.order, by rw [commit]; exact intact.within,
    by rw [snapshot]; exact intact.newest⟩

theorem moved (intact : s.Intact l) {core : RaftCore Log} {l' : List LogEntry} {unsynced : Bool}
    (only : LogOnly s.core core) (grounded : core.Grounded l' unsynced)
    (forward : s.core.commitIndex ≤ core.commitIndex) (within : core.commitIndex ≤ l'.length) :
    ({ s with core, unsynced } : Node).Intact l' := by
  have snapshot : core.snapshot = s.core.snapshot := by rw [only]
  have applied : core.lastApplied = s.core.lastApplied := by rw [only]
  refine ⟨grounded, intact.running.congr only.ballot, ?_, ?_, within, ?_⟩
  · rw [snapshot, applied]
    exact intact.applied
  · rw [applied]
    exact intact.order.trans forward
  · rw [snapshot]
    exact intact.newest

theorem command (intact : s.Intact l) {command : Command}
    (allowed : s.Allowed (.command command)) {s' : Node}
    (stepped : s.step (.command command) = some s') : ∃ l', s'.Intact l' := by
  rw [Allowed, intact.grounded.holds.lastLogIndex] at allowed
  rcases intact.grounded.appendCommand rfl allowed with
    ⟨stop, refused⟩ | ⟨core, appended, only, commit, grounded⟩
  · rw [step, refused] at stepped
    cases stepped
    exact ⟨l, intact⟩
  · rw [step, appended] at stepped
    cases stepped
    have longer := intact.within
    refine ⟨_, intact.moved only grounded commit.ge ?_⟩
    rw [commit, List.length_append]
    omega

theorem sync (intact : s.Intact l) {s' : Node} (stepped : s.step .sync = some s') : s'.Intact l := by
  obtain ⟨core, ran, only, commit, grounded⟩ := intact.grounded.sync
  rw [step, ran] at stepped
  cases stepped
  exact intact.moved only grounded commit.ge (commit ▸ intact.within)

theorem spliced_within (intact : s.Intact l) {entries : List LogEntry} {p : Nat}
    (contiguous : ∀ j e, entries[j]? = some e → e.index = p + j + 1)
    (agree : ∀ e ∈ entries, e.index ≤ s.core.commitIndex → ∀ t ∈ s.core.termAt e.index, t = e.term) :
    s.core.commitIndex ≤
      (Consensus.splice s.core.snapshot.lastIncludedIndex l p entries).length := by
  have kept : (Consensus.splice s.core.snapshot.lastIncludedIndex l p entries).take
      s.core.commitIndex = l.take s.core.commitIndex := by
    refine Consensus.splice_keeps intact.within fun j e own found above below here => ?_
    have index := contiguous j e found
    have bound := (List.getElem?_eq_some_iff.mp here).1
    refine agree e (List.mem_of_getElem? found) (by omega) _ ?_
    rw [index, intact.grounded.holds.termAt (by omega) (by omega), Consensus.termAt_succ, here]
    rfl
  have length := congrArg List.length kept
  simp only [List.length_take, Nat.min_eq_left intact.within] at length
  omega

theorem appendEntries (intact : s.Intact l) {clock : Clock} {args : AppendEntriesArgs}
    (allowed : s.Allowed (.appendEntries clock args)) : ∃ l',
      ({ s with core := (handleAppendEntries clock args s.core).2 } : Node).Intact l' := by
  obtain ⟨core, unsynced, snapshots⟩ := s
  obtain ⟨synced, contiguous, agree, recordable⟩ := allowed
  cases synced
  rw [intact.running.handleAppendEntries]
  split_ifs with stale
  · exact ⟨l, intact⟩
  · have same := recognised_logPart args clock core
    have followed : (⟨(core.recognised args).armed clock, false, snapshots⟩ : Node).Intact l :=
      intact.keep ((intact.running.recognised args).congr (armed_ballot clock _)) same
    have agree' : ∀ e ∈ args.entries, e.index ≤ ((core.recognised args).armed clock).commitIndex →
        ∀ t ∈ ((core.recognised args).armed clock).termAt e.index, t = e.term := by
      simp only [logPart, Prod.mk.injEq] at same
      obtain ⟨_, entries, snapshot, commit, _⟩ := same
      intro e member committed t found
      rw [termAt_congr snapshot entries] at found
      exact agree e member (commit ▸ committed) t found
    revert followed agree'
    generalize (core.recognised args).armed clock = seen
    intro followed agree'
    rw [matchAndStore_run]
    split_ifs with ahead differs
    · exact ⟨l, followed⟩
    · exact ⟨l, followed⟩
    · have grounded : seen.Grounded l false := followed.grounded
      rw [grounded.holds.lastLogIndex] at ahead
      have within : seen.commitIndex ≤ (Consensus.splice seen.snapshot.lastIncludedIndex l
          args.prevLogIndex args.entries).length := followed.spliced_within contiguous agree'
      obtain ⟨core', stored, only, grounded', commit⟩ :=
        grounded.store (Nat.le_of_not_lt ahead) contiguous recordable rfl
      have forward : seen.commitIndex ≤ core'.commitIndex := by
        rw [commit]
        split_ifs <;> omega
      rw [stored]
      refine ⟨_, followed.moved only grounded' forward ?_⟩
      rw [commit]
      split_ifs <;> omega

theorem requestVote (intact : s.Intact l) (clock : Clock) (args : RequestVoteArgs) :
    ({ s with core := (handleRequestVote clock args s.core).2 } : Node).Intact l := by
  have seen := intact.running.observe args.term none
  have same := observe_logPart args.term none s.core
  rw [intact.running.handleRequestVote]
  split_ifs with stale granted
  · exact intact
  · exact intact.keep ((seen.saveHard _).congr (armed_ballot clock _)) same
  · exact intact.keep seen same

theorem follow (intact : s.Intact l) (term : Nat) (leader : Option Nat) :
    ({ s with core := (becomeFollower term leader s.core).2 } : Node).Intact l := by
  by_cases newer : s.core.hard.currentTerm < term
  · rw [intact.running.becomeFollower newer]
    exact intact.keep (intact.running.observe term leader) (observe_logPart term leader s.core)
  · have same : becomeFollower term leader s.core = (.ok (), { s.core with
        role := .follower, leaderId := leader, lease := s.core.lease.invalidate }) := by
      simp only [becomeFollower, Fallible.bind_run, Fallible.get_run, Fallible.when_run, if_neg newer,
        Fallible.modify_run]
    rw [same]
    exact intact.keep ⟨intact.running.durable, intact.running.saved, intact.running.timed⟩ rfl

theorem advance (intact : s.Intact l) : ({ s with core := s.core.advanceCommitIndex } : Node).Intact l := by
  rcases intact.grounded.holds.advance with same | ⟨k, above, within, same⟩
  · rw [same]
    exact intact
  · rw [same]
    exact intact.moved rfl (intact.grounded.congr rfl rfl rfl) above.le within

theorem reply (intact : s.Intact l) (peer lastSent : Nat) (reply : AppendEntriesReply) :
    ({ s with core := s.core.onAppendEntriesReply peer lastSent reply } : Node).Intact l := by
  obtain ⟨nextIndex, matchIndex, same⟩ := onAppendEntriesReply_cases peer lastSent reply s.core
  have counted : ({ s with core := { s.core with nextIndex, matchIndex } } : Node).Intact l :=
    intact.keep (intact.running.congr rfl) rfl
  rcases same with same | same
  · rw [same]
    exact counted
  · rw [same]
    exact counted.advance

theorem take (intact : s.Intact l) : ({ s with core := s.core.takeCommitted.2 } : Node).Intact l := by
  rw [intact.grounded.holds.takeCommitted_run intact.applied intact.order intact.within]
  exact ⟨intact.grounded.congr rfl rfl rfl, intact.running.congr rfl,
    intact.applied.trans intact.order, le_rfl, intact.within, intact.newest⟩

theorem compact (intact : s.Intact l) {snapshot : SnapshotMeta}
    (allowed : s.Allowed (.compact snapshot)) :
    ({ s with core := (RaftCore.compact snapshot s.core).2,
              snapshots := snapshot :: s.snapshots } : Node).Intact l := by
  obtain ⟨_, done, stamp⟩ := allowed
  have order := intact.order
  have within := intact.within
  by_cases fresh : s.core.snapshot.lastIncludedIndex < snapshot.lastIncludedIndex
  · have stamped : snapshot = ⟨snapshot.lastIncludedIndex,
        Consensus.termAt l snapshot.lastIncludedIndex⟩ := by
      have found := intact.grounded.holds.termAt fresh.le (by omega)
      rw [stamp _ found]
    obtain ⟨core, ran, same, latest, grounded⟩ := intact.grounded.compact fresh (by omega)
    rw [← stamped] at ran latest
    rw [ran]
    have applied : core.lastApplied = s.core.lastApplied := by rw [same]
    have commit : core.commitIndex = s.core.commitIndex := by rw [same]
    refine ⟨grounded, intact.running.congr (by rw [same]; rfl), ?_, ?_, ?_, ?_⟩
    · rw [latest, applied]
      exact done
    · rw [applied, commit]
      exact order
    · rw [commit]
      exact within
    · rw [Node.newest, intact.newest, if_pos fresh, latest]
  · rw [compact_idle fresh]
    refine ⟨intact.grounded, intact.running, intact.applied, order, within, ?_⟩
    rw [Node.newest, intact.newest, if_neg fresh]

theorem restarted [LawfulBincode] (intact : s.Intact l) (synced : s.unsynced = false) (clock : Clock)
    {cfg : Config}
    (timed : asMillis cfg.electionTimeout.start < asMillis cfg.electionTimeout.stop) :
    ∃ log, s.restarted clock cfg = .ok { s with
        core := (assemble clock cfg s.core.hardPath s.core.snapshot log s.core.entries).armed clock
        unsynced := false } ∧
      ({ s with
        core := (assemble clock cfg s.core.hardPath s.core.snapshot log s.core.entries).armed clock
        unsynced := false } : Node).Intact l := by
  obtain ⟨core, unsynced, snapshots⟩ := s
  cases synced
  obtain ⟨flatLog, shown, backs, reaches⟩ := intact.grounded.recorded
  obtain ⟨log, opened, shown'⟩ := Log.Shows.reopen shown cfg.segmentMaxBytes
  have shown' : Journal.Shows log flatLog false := shown'
  have holds := intact.grounded.holds
  refine ⟨log, ?_, ⟨holds.congr rfl rfl, flatLog, shown', backs, reaches⟩,
    ⟨intact.running.durable, rfl, timed⟩, le_rfl, le_rfl, holds.compacted, intact.newest⟩
  rw [Node.restarted, opened, intact.newest, holds.entries]
  simp only [bind, Except.bind]
  rw [Grounded.restore shown' backs reaches timed]
  rfl

theorem step [LawfulBincode] (intact : s.Intact l) {move : Move} {s' : Node}
    (allowed : s.Allowed move) (stepped : s.step move = some s') : ∃ l', s'.Intact l' := by
  cases move with
  | command command => exact intact.command allowed stepped
  | sync => exact ⟨l, intact.sync stepped⟩
  | appendEntries clock args =>
    cases stepped
    exact intact.appendEntries allowed
  | requestVote clock args =>
    cases stepped
    exact ⟨l, intact.requestVote clock args⟩
  | campaign clock =>
    cases stepped
    rw [intact.running.becomeCandidate]
    exact ⟨l, intact.keep ⟨rfl, rfl, intact.running.timed⟩ rfl⟩
  | lead =>
    cases stepped
    exact ⟨l, intact.keep ⟨intact.running.durable, intact.running.saved, intact.running.timed⟩ rfl⟩
  | follow term leader =>
    cases stepped
    exact ⟨l, intact.follow term leader⟩
  | reply peer lastSent reply =>
    cases stepped
    exact ⟨l, intact.reply peer lastSent reply⟩
  | take =>
    cases stepped
    exact ⟨l, intact.take⟩
  | compact snapshot =>
    cases stepped
    exact ⟨l, intact.compact allowed⟩
  | restart clock cfg =>
    obtain ⟨log, ran, intact'⟩ := intact.restarted allowed.1 clock allowed.2
    rw [Node.step, ran] at stepped
    cases stepped
    exact ⟨l, intact'⟩

theorem consistent [LawfulBincode] (intact : s.Intact l) : s.Consistent := by
  have holds := intact.grounded.holds
  obtain ⟨flatLog, shown, backs, reaches⟩ := intact.grounded.recorded
  have length := backs.length
  have positive := backs.positive
  refine ⟨fun i e found => ?_, ?_, ?_, fun synced index above => ?_, fun synced clock cfg timed => ?_⟩
  · have index := holds.contiguous i e found
    omega
  · rw [Log.Shows.lastIndex shown, FlatLog.lastIndex, holds.lastLogIndex]
    omega
  · rw [Log.Shows.firstIndex shown]
    exact reaches
  · rw [synced] at shown
    rw [baseIndex] at above
    have reached : flatLog.firstIndex ≤ index - 1 + 1 := by omega
    obtain ⟨cut, ran⟩ := FlatLog.truncateSuffix_ok reached
    obtain ⟨log, truncated, _⟩ := Journal.truncateSuffix shown ran
    simp only [truncateFrom, Fallible.bind_run, Fallible.modify_run, onLog, Fallible.part_run,
      truncated]
  · obtain ⟨log, ran, _⟩ := intact.restarted synced clock timed
    exact ⟨_, ran, rfl, fun i => termAt_congr rfl rfl, fun i => rfl, rfl, rfl, intact.running.saved⟩

end Intact

/-- In every run of a node from an empty directory, memory and log agree, and a restart
gives back the log, the term and the vote. -/
theorem restart_reproduces [LawfulBincode] {path : String} {clock : Clock} {cfg : Config} {s s' : Node}
    (started : start path clock cfg = .ok s) (run : Reaches step Allowed s s') : s'.Consistent := by
  obtain ⟨l, intact⟩ := run.invariant (P := fun s => ∃ l, s.Intact l)
    ⟨[], Intact.start started⟩ fun ⟨_, before⟩ allowed stepped => before.step allowed stepped
  exact intact.consistent

end Node
end Records

namespace Node

/-- A single node with one record in each segment. -/
def lone : Config := { Config.new 1 with segmentMaxBytes := 1 }

/-- It leads, commits two entries, compacts the first, restarts and then follows another
leader: one segment is gone and two entries are left in memory. -/
theorem restart_reproduces_lone : ∃ s s', start "wal" ⟨0, 0⟩ lone = .ok s ∧ Reaches step Allowed s s' ∧
    s'.core.snapshot = ⟨1, 1⟩ ∧ s'.core.log.firstIndex = 2 ∧ s'.core.lastLogIndex = 3 ∧
    s'.Consistent := by
  have ran : ((start "wal" ⟨0, 0⟩ lone).toOption.bind fun s => execute step Allowed s
      [.campaign ⟨0, 0⟩, .lead, .command .noop, .command (.put [1] [1]), .sync, .reply 1 0 ⟨1, true, 0⟩,
        .take, .compact ⟨1, 1⟩, .restart ⟨0, 0⟩ lone,
        .appendEntries ⟨0, 0⟩ ⟨2, 2, 2, 1, [⟨2, 3, .noop⟩], 2⟩]).any
      (fun s => decide (s.core.snapshot = ⟨1, 1⟩ ∧ s.core.log.firstIndex = 2 ∧
        s.core.lastLogIndex = 3)) = true := by
    decide +kernel
  obtain ⟨s, s', found, reached, shown⟩ := execute_shows_from ran
  obtain ⟨snapshot, first, last⟩ := of_decide_eq_true shown
  have started := Except.of_toOption_some found
  exact ⟨s, s', started, reached, snapshot, first, last, restart_reproduces started reached⟩

end Node
end WalKv
