import WalKv.Raft.Compaction
import WalKv.Driver.Model
import WalKv.Wal.Log

/-! Calls of `apply_committed` that run next to each other and next to everything else on the
node. A call that takes a snapshot keeps the store locked and locks the core twice, to read the
term of the last applied entry and to compact; in between the core belongs to others. -/
namespace WalKv
open RaftCore Transition

/-- A locked section of the core outside `apply_committed`. -/
inductive CoreCall where
  | requestVote (clock : Clock) (args : RequestVoteArgs)
  | appendEntries (clock : Clock) (args : AppendEntriesArgs)
  | propose (command : Command)
  | campaign (clock : Clock)
  | win
  | follow (term : Nat) (leader : Option Nat)
  | reply (peer lastSent : Nat) (answer : AppendEntriesReply)
  | renewLease (now : Nat)

namespace CoreCall
variable {W : Type} [WalOps W] [Bincode]

/-- What the section leaves behind, also if it fails. -/
def run (core : RaftCore W) : CoreCall → RaftCore W
  | .requestVote clock args => (handleRequestVote clock args core).2
  | .appendEntries clock args => (handleAppendEntries clock args core).2
  | .propose command => (RaftCore.propose command core).2
  | .campaign clock => (becomeCandidate clock core).2
  | .win => (winElection core).2
  | .follow term leader => (becomeFollower term leader core).2
  | .reply peer lastSent answer => core.onAppendEntriesReply peer lastSent answer
  | .renewLease now => core.renewLease now

/-- Requests leave the log contiguous and cut no committed entry. -/
def Legal (core : RaftCore W) : CoreCall → Prop
  | .appendEntries clock args => KeepsCommitted core (handleAppendEntries clock args core).2
  | _ => True

instance (core : RaftCore W) (call : CoreCall) : Decidable (call.Legal core) :=
  match call with
  | .appendEntries clock args => inferInstanceAs (Decidable (KeepsCommitted core
      (handleAppendEntries clock args core).2))
  | .requestVote .. | .propose _ | .campaign _ | .win | .follow .. | .reply .. | .renewLease _ =>
    .isTrue trivial

theorem run_continues {core : RaftCore W} (regular : core.Regular)
    (based : core.snapshot.lastIncludedIndex ≤ core.commitIndex) {call : CoreCall}
    (legal : call.Legal core) : Continues core (call.run core) := by
  cases call with
  | requestVote clock args => exact .sameLog regular (handleRequestVote_sameLog clock args core)
  | appendEntries clock args => exact handleAppendEntries_continues regular based clock args legal
  | propose command => exact propose_steady command core regular
  | campaign clock => exact .sameLog regular (becomeCandidate_sameLog clock core)
  | win => exact winElection_steady core regular
  | follow term leader => exact .sameLog regular (becomeFollower_sameLog term leader core)
  | reply peer lastSent answer => exact Steady.reply peer lastSent answer core regular
  | renewLease now =>
    refine .sameLog regular ?_
    simp only [run, RaftCore.renewLease]
    split_ifs <;> rfl

end CoreCall

/-- Where a call of `apply_committed` is. From `stamping` on it has the store locked. -/
inductive Stage where
  | entered
  | storing (batch : List LogEntry)
  | stamping
  | writing (term : Nat)
  | compacting (snapshotMeta : SnapshotMeta)
  | returned
  deriving DecidableEq

def Stage.holdsStore : Stage → Bool
  | .stamping | .writing _ | .compacting _ => true
  | _ => false

/-- The core, the store and the calls of `apply_committed`. -/
structure Applier (W : Type) where
  core : RaftCore W
  store : Store
  calls : List Stage

namespace Applier
variable {W : Type} {s s' : Applier W}

inductive Action where
  | other (call : CoreCall)
  | enter
  | take (call : Nat)
  | store (call : Nat)
  | stamp (call : Nat)
  | write (call : Nat) (outcome : SnapshotOutcome)
  | compact (call : Nat)

def goto (s : Applier W) (call : Nat) (stage : Stage) : Applier W :=
  { s with calls := s.calls.set call stage }

/-- The snapshot that a call has written and not yet compacted to. -/
def pending (s : Applier W) (call : Nat) : Option SnapshotMeta :=
  match s.calls[call]? with
  | some (.compacting snapshotMeta) => some snapshotMeta
  | _ => none

theorem pending_iff {call : Nat} {snapshotMeta : SnapshotMeta} :
    s.pending call = some snapshotMeta ↔ s.calls[call]? = some (.compacting snapshotMeta) := by
  unfold pending
  split
  · rename_i found
    rw [found]
    simp
  · rename_i other
    simp only [reduceCtorEq, false_iff]
    exact other snapshotMeta

section Step
variable [WalOps W] [Bincode]

/-- The sections of `apply_committed` in turn. Writing the snapshot may fail, and so may the
compaction; both end the call. -/
def step (s : Applier W) : Action → Option (Applier W)
  | .other call => some { s with core := call.run s.core }
  | .enter => some { s with calls := s.calls ++ [.entered] }
  | .take call =>
    match s.calls[call]? with
    | some .entered =>
      let (batch, core) := s.core.takeCommitted
      some ({ s with core }.goto call (if batch = [] then .returned else .storing batch))
    | _ => none
  | .store call =>
    match s.calls[call]? with
    | some (.storing batch) =>
      if s.calls.any Stage.holdsStore then none
      else
        let store := Driver.applyBatch batch s.store
        some ({ s with store }.goto call (if store.shouldSnapshot then .stamping else .returned))
    | _ => none
  | .stamp call =>
    match s.calls[call]? with
    | some .stamping =>
      some (s.goto call (.writing ((s.core.termAt s.store.lastApplied).getD 0)))
    | _ => none
  | .write call outcome =>
    match s.calls[call]? with
    | some (.writing term) =>
      match s.store.takeSnapshot term outcome with
      | (some snapshotMeta, store) => some ({ s with store }.goto call (.compacting snapshotMeta))
      | (none, store) => some ({ s with store }.goto call .returned)
    | _ => none
  | .compact call => (s.pending call).map fun snapshotMeta =>
    { s with core := (RaftCore.compact snapshotMeta s.core).2 }.goto call .returned

/-- No request breaks the log. -/
def Legal (s : Applier W) : Action → Prop
  | .other call => call.Legal s.core
  | _ => True

instance (s : Applier W) (action : Action) : Decidable (s.Legal action) :=
  match action with
  | .other call => inferInstanceAs (Decidable (call.Legal s.core))
  | .enter | .take _ | .store _ | .stamp _ | .write .. | .compact _ => .isTrue trivial

/-- The write-ahead log can be cut where a compaction moves the snapshot. -/
def Cuts (s : Applier W) : Action → Prop
  | .compact call => ∀ snapshotMeta ∈ s.pending call,
      s.core.snapshot.lastIncludedIndex < snapshotMeta.lastIncludedIndex →
        (WalOps.truncatePrefix (snapshotMeta.lastIncludedIndex + 1) s.core.log).1 = .ok ()
  | _ => True

instance (s : Applier W) (action : Action) : Decidable (s.Cuts action) :=
  match action with
  | .compact call => inferInstanceAs (Decidable (∀ snapshotMeta ∈ s.pending call,
      s.core.snapshot.lastIncludedIndex < snapshotMeta.lastIncludedIndex →
        (WalOps.truncatePrefix (snapshotMeta.lastIncludedIndex + 1) s.core.log).1 = .ok ()))
  | .other _ | .enter | .take _ | .store _ | .stamp _ | .write .. => .isTrue trivial

def Allowed (s : Applier W) (action : Action) : Prop := s.Legal action ∧ s.Cuts action

instance (s : Applier W) (action : Action) : Decidable (s.Allowed action) :=
  inferInstanceAs (Decidable (_ ∧ _))

end Step

/-- A regular log; the snapshot covers nothing that the store has not applied, and the store has
applied nothing that was not handed out. -/
structure Ready (s : Applier W) : Prop where
  regular : s.core.Regular
  covered : s.core.snapshot.lastIncludedIndex ≤ s.store.lastApplied
  applied : s.store.lastApplied ≤ s.core.lastApplied

/-- What a call knows at its stage. -/
def Fits (s : Applier W) : Stage → Prop
  | .storing batch => ∀ e ∈ batch, e.index ≤ s.core.lastApplied
  | .writing term => s.core.termAt s.store.lastApplied = some term
  | .compacting snapshotMeta => snapshotMeta.lastIncludedIndex = s.store.lastApplied ∧
      s.core.termAt s.store.lastApplied = some snapshotMeta.lastIncludedTerm
  | _ => True

/-- One call at most has the store locked, and every call fits. -/
structure Orderly (s : Applier W) : Prop extends Ready s where
  single : ∀ (i j : Nat) (a b : Stage), s.calls[i]? = some a → s.calls[j]? = some b →
    a.holdsStore = true → b.holdsStore = true → i = j
  fits : ∀ stage ∈ s.calls, s.Fits stage

theorem applyBatch_lastApplied {batch : List LogEntry} {store : Store} {bound : Nat}
    (below : store.lastApplied ≤ bound) (within : ∀ e ∈ batch, e.index ≤ bound) :
    store.lastApplied ≤ (Driver.applyBatch batch store).lastApplied ∧
      (Driver.applyBatch batch store).lastApplied ≤ bound := by
  induction batch generalizing store with
  | nil => exact ⟨le_rfl, below⟩
  | cons e rest ih =>
    have moved : store.lastApplied ≤ (store.apply e.index e.command).lastApplied ∧
        (store.apply e.index e.command).lastApplied ≤ bound := by
      have here := within e List.mem_cons_self
      simp only [Store.lastApplied, Store.apply, MemTable.apply] at below ⊢
      split_ifs with old
      · exact ⟨le_rfl, below⟩
      · exact ⟨Nat.le_of_not_le old, here⟩
    have rest := ih moved.2 fun e member => within e (List.mem_cons_of_mem _ member)
    exact ⟨moved.1.trans rest.1, rest.2⟩

namespace Orderly

theorem start (ready : s.Ready) (none : s.calls = []) : s.Orderly where
  toReady := ready
  single i j a b found := by simp [none] at found
  fits stage member := by simp [none] at member

theorem other (orderly : s.Orderly) {core : RaftCore W} (continues : Continues s.core core) :
    Orderly { s with core } := by
  have committed := orderly.applied.trans orderly.regular.applied
  have term := continues.termAt orderly.covered committed
  refine ⟨⟨continues.regular orderly.regular, ?_, ?_⟩, orderly.single, fun stage member => ?_⟩
  · rw [continues.snapshot]
    exact orderly.covered
  · rw [continues.applied]
    exact orderly.applied
  · have fits := orderly.fits stage member
    cases stage <;> simp only [Fits] at fits ⊢
    case storing batch =>
      rw [continues.applied]
      exact fits
    case writing t => rwa [term]
    case compacting snapshotMeta => rwa [term]

theorem goto (orderly : s.Orderly) {call : Nat} {stage : Stage} (fits : s.Fits stage)
    (locked : stage.holdsStore = true → (∃ old, s.calls[call]? = some old ∧ old.holdsStore = true) ∨
      ∀ old ∈ s.calls, old.holdsStore = false) : (s.goto call stage).Orderly := by
  have alone (j : Nat) (other : Stage) (holds : stage.holdsStore = true)
      (found : s.calls[j]? = some other) (busy : other.holdsStore = true) : j = call := by
    rcases locked holds with ⟨old, here, had⟩ | free
    · exact orderly.single j call other old found here busy had
    · rw [free other (List.mem_of_getElem? found)] at busy
      cases busy
  refine ⟨⟨orderly.regular, orderly.covered, orderly.applied⟩,
    fun i j a b first second holdsA holdsB => ?_, fun other member => ?_⟩
  · simp only [Applier.goto, List.getElem?_set] at first second
    split_ifs at first second with hi _ hj hj
    · exact hi.symm.trans hj
    · cases first
      exact hi.symm.trans (alone j b holdsA second holdsB).symm
    · cases second
      exact (alone i a holdsB first holdsA).trans hj
    · exact orderly.single i j a b first second holdsA holdsB
  · rcases List.mem_or_eq_of_mem_set member with old | rfl
    · exact orderly.fits other old
    · exact fits

theorem pending (orderly : s.Orderly) {call : Nat} {snapshotMeta : SnapshotMeta}
    (pending : s.pending call = some snapshotMeta) :
    snapshotMeta.lastIncludedIndex = s.store.lastApplied ∧
      s.core.snapshot.lastIncludedIndex ≤ snapshotMeta.lastIncludedIndex ∧
      snapshotMeta.lastIncludedIndex ≤ s.core.commitIndex ∧
      s.core.termAt snapshotMeta.lastIncludedIndex = some snapshotMeta.lastIncludedTerm := by
  obtain ⟨index, found⟩ := orderly.fits _ (List.mem_of_getElem? (pending_iff.mp pending))
  rw [index]
  exact ⟨rfl, orderly.covered, orderly.applied.trans orderly.regular.applied, found⟩

theorem files (orderly : s.Orderly) (snapshotDir : SnapshotDir) (lastSnapshot : SnapshotMeta) :
    Orderly { s with store := { s.store with snapshotDir, lastSnapshot } } :=
  ⟨⟨orderly.regular, orderly.covered, orderly.applied⟩, orderly.single, orderly.fits⟩

theorem enter (orderly : s.Orderly) : Orderly { s with calls := s.calls ++ [.entered] } := by
  have old {i : Nat} {stage : Stage} (found : (s.calls ++ [.entered])[i]? = some stage)
      (holds : stage.holdsStore = true) : s.calls[i]? = some stage := by
    rcases Nat.lt_or_ge i s.calls.length with inside | new
    · rwa [List.getElem?_append_left inside] at found
    · rw [List.getElem?_append_right new] at found
      rw [List.mem_singleton.mp (List.mem_of_getElem? found)] at holds
      cases holds
  refine ⟨⟨orderly.regular, orderly.covered, orderly.applied⟩,
    fun i j a b first second holdsA holdsB => ?_, fun stage member => ?_⟩
  · exact orderly.single i j a b (old first holdsA) (old second holdsB) holdsA holdsB
  · rcases List.mem_append.mp member with known | new
    · exact orderly.fits stage known
    · rw [List.mem_singleton.mp new]
      trivial

theorem handOut (orderly : s.Orderly) :
    Orderly { s with core := { s.core with lastApplied := s.core.commitIndex } } := by
  have regular := orderly.regular
  refine ⟨⟨⟨regular.contiguous, regular.blank, le_rfl, regular.within⟩, orderly.covered,
    orderly.applied.trans regular.applied⟩, orderly.single, fun stage member => ?_⟩
  have fits := orderly.fits stage member
  cases stage with
  | storing batch => exact fun e inside => (fits e inside).trans regular.applied
  | _ => exact fits

theorem replace (orderly : s.Orderly) (free : ∀ stage ∈ s.calls, stage.holdsStore = false)
    {core : RaftCore W} {store : Store} (applied : core.lastApplied = s.core.lastApplied)
    (ready : Ready { s with core, store }) : Orderly { s with core, store } := by
  refine ⟨ready, orderly.single, fun stage member => ?_⟩
  have fits := orderly.fits stage member
  have idle := free stage member
  cases stage with
  | storing batch =>
    simp only [Fits, applied]
    exact fits
  | entered | returned => trivial
  | stamping | writing _ | compacting _ => cases idle

end Orderly

section Step
variable [WalOps W] [Bincode]

namespace Orderly

theorem take (orderly : s.Orderly) {call : Nat} (stepped : s.step (.take call) = some s') :
    s'.Orderly := by
  obtain ⟨l, holds⟩ := orderly.regular.contiguous.holds orderly.regular.blank
  have within := orderly.regular.within
  rw [holds.lastLogIndex] at within
  have taken := holds.takeCommitted_run (orderly.covered.trans orderly.applied)
    orderly.regular.applied within
  simp only [Applier.step, taken] at stepped
  split at stepped
  · cases stepped
    refine orderly.handOut.goto ?_ ?_
    · split_ifs
      · trivial
      · intro e member
        exact holds.indexed.le_of_mem_take (List.mem_of_mem_drop member)
    · split_ifs <;> simp [Stage.holdsStore]
  · cases stepped

theorem store (orderly : s.Orderly) {call : Nat} (stepped : s.step (.store call) = some s') :
    s'.Orderly := by
  simp only [Applier.step] at stepped
  split at stepped
  · rename_i batch storing
    rw [Option.ite_none_left_eq_some] at stepped
    obtain ⟨busy, stepped⟩ := stepped
    cases stepped
    have free : ∀ stage ∈ s.calls, stage.holdsStore = false := by simpa using busy
    have fits := orderly.fits _ (List.mem_of_getElem? storing)
    obtain ⟨forward, within⟩ := applyBatch_lastApplied orderly.applied fits
    have stored : Orderly { s with store := Driver.applyBatch batch s.store } :=
      orderly.replace free rfl ⟨orderly.regular, orderly.covered.trans forward, within⟩
    refine stored.goto ?_ fun _ => .inr free
    split_ifs <;> trivial
  · cases stepped

theorem stamp (orderly : s.Orderly) {call : Nat} (stepped : s.step (.stamp call) = some s') :
    s'.Orderly := by
  simp only [Applier.step] at stepped
  split at stepped
  · rename_i stamping
    cases stepped
    have within := (orderly.applied.trans orderly.regular.applied).trans orderly.regular.within
    obtain ⟨term, found⟩ := orderly.regular.termAt_some orderly.covered within
    refine orderly.goto ?_ fun _ => .inl ⟨_, stamping, rfl⟩
    rw [found]
    exact found
  · cases stepped

theorem write (orderly : s.Orderly) {call : Nat} {outcome : SnapshotOutcome}
    (stepped : s.step (.write call outcome) = some s') : s'.Orderly := by
  simp only [Applier.step] at stepped
  split at stepped
  · rename_i term writing
    have fits := orderly.fits _ (List.mem_of_getElem? writing)
    cases outcome with
    | written removed =>
      cases stepped
      exact (orderly.files _ _).goto ⟨rfl, fits⟩ fun _ => .inl ⟨_, writing, rfl⟩
    | failed =>
      cases stepped
      exact orderly.goto trivial (by simp [Stage.holdsStore])
    | left =>
      cases stepped
      exact (orderly.files _ _).goto trivial (by simp [Stage.holdsStore])
  · cases stepped

theorem compact (orderly : s.Orderly) {call : Nat} (cuts : s.Cuts (.compact call))
    (stepped : s.step (.compact call) = some s') : s'.Orderly := by
  obtain ⟨snapshotMeta, pending, rfl⟩ := Option.map_eq_some_iff.mp stepped
  obtain ⟨index, covered, committed, found⟩ := orderly.pending pending
  obtain ⟨cut, _⟩ := orderly.regular.compact covered committed found
  obtain ⟨snapshot, applied, regular⟩ := cut (compact_ok (cuts _ pending))
  have left : (s.goto call .returned).Orderly := orderly.goto trivial (by simp [Stage.holdsStore])
  have free : ∀ stage ∈ (s.goto call .returned).calls, stage.holdsStore = false := by
    intro stage member
    obtain ⟨j, here⟩ := List.getElem?_of_mem member
    simp only [Applier.goto, List.getElem?_set] at here
    split_ifs at here with same
    · cases here
      rfl
    · by_contra holds
      exact same (orderly.single call j _ stage (pending_iff.mp pending) here rfl
        (Bool.not_eq_false _ ▸ holds))
  exact left.replace free applied ⟨regular, by rw [snapshot, index], applied ▸ orderly.applied⟩

theorem step (orderly : s.Orderly) {action : Action} (allowed : s.Allowed action)
    (stepped : s.step action = some s') : s'.Orderly := by
  obtain ⟨legal, cuts⟩ := allowed
  cases action with
  | other call =>
    cases stepped
    exact orderly.other (CoreCall.run_continues orderly.regular
      ((orderly.covered.trans orderly.applied).trans orderly.regular.applied) legal)
  | enter =>
    cases stepped
    exact orderly.enter
  | take call => exact orderly.take stepped
  | store call => exact orderly.store stepped
  | stamp call => exact orderly.stamp stepped
  | write call outcome => exact orderly.write stepped
  | compact call => exact orderly.compact cuts stepped

end Orderly

/-- The snapshot that a call is about to write, and the one that it is about to install, is of
a committed entry and has the term of that entry. Compaction installs it and loses nothing from
its index on, exactly if it does not fail. -/
structure Exact (s : Applier W) : Prop where
  written : ∀ (call term : Nat) removed, s.calls[call]? = some (.writing term) →
    s.core.Stamps (s.store.snapshot term removed).1
  installed : ∀ call, ∀ snapshotMeta ∈ s.pending call,
    s.core.Stamps snapshotMeta ∧
    ((RaftCore.compact snapshotMeta s.core).1 = .ok () →
      (RaftCore.compact snapshotMeta s.core).2.snapshot = snapshotMeta) ∧
    (SameAbove snapshotMeta.lastIncludedIndex s.core (RaftCore.compact snapshotMeta s.core).2 ↔
      (RaftCore.compact snapshotMeta s.core).1 = .ok ())

omit [Bincode] in
theorem Orderly.exact (orderly : s.Orderly) : s.Exact := by
  constructor
  · intro call term removed writing
    have found := orderly.fits _ (List.mem_of_getElem? writing)
    exact orderly.regular.stamps orderly.covered
      (orderly.applied.trans orderly.regular.applied) found
  · intro call snapshotMeta pending
    obtain ⟨_, covered, committed, found⟩ := orderly.pending pending
    obtain ⟨cut, same⟩ := orderly.regular.compact covered committed found
    exact ⟨orderly.regular.stamps covered committed found, fun ended => (cut ended).1, same⟩

/-- In every run in which no compaction fails, next to whatever else the node does, snapshots
have the right index and term, and compaction changes nothing above them. -/
theorem snapshots_exact {start : Applier W} (ready : start.Ready) (none : start.calls = [])
    (run : Reaches step Allowed start s) : s.Exact := by
  have orderly := run.invariant (Orderly.start ready none)
    fun before allowed stepped => before.step allowed stepped
  exact orderly.exact

/-- A node that is started on its log and its snapshots. -/
def bootstrap (clock : Clock) (cfg : Config) (hardPath : HardFile) (snapshotDir : SnapshotDir)
    (log : W) : Except Stop (Applier W) := do
  let store := Store.opened cfg.snapshotThreshold snapshotDir
  let core ← restore clock cfg hardPath store.lastSnapshot log
  pure ⟨core, store, []⟩

theorem bootstrap_ready {clock : Clock} {cfg : Config} {hardPath : HardFile}
    {snapshotDir : SnapshotDir} {log : W}
    (started : bootstrap clock cfg hardPath snapshotDir log = .ok s)
    (contiguous : s.core.Contiguous)
    (blank : s.core.snapshot.lastIncludedIndex = 0 → s.core.snapshot.lastIncludedTerm = 0) :
    s.Ready ∧ s.calls = [] := by
  obtain ⟨core, restored, started⟩ := Except.of_bind_ok started
  obtain ⟨records, entries, _, _, _, rfl⟩ := restore_ok restored
  cases started
  have opened := Store.opened_lastApplied cfg.snapshotThreshold snapshotDir
  refine ⟨⟨⟨contiguous, blank, le_rfl, ?_⟩, opened.ge, opened.le⟩, rfl⟩
  rw [contiguous.lastLogIndex]
  exact Nat.le_add_right _ _

end Step
end Applier

namespace Applier

/-- One record in each segment, and a snapshot of every entry. -/
def trio : Config := { (Config.new 1).withPeers [⟨2, ""⟩, ⟨3, ""⟩] with
  segmentMaxBytes := 1, snapshotThreshold := 1 }

/-- The node leads with three entries. It applies the first when that is committed, and takes a
snapshot; meanwhile the others are committed. -/
def snapshotting : List Action :=
  [.other (.campaign ⟨0, 0⟩), .other .win, .other (.propose .noop), .other (.propose .noop),
    .other (.reply 2 1 ⟨1, true, 0⟩), .enter, .take 0, .store 0, .stamp 0,
    .other (.reply 2 3 ⟨1, true, 0⟩), .write 0 (.written fun _ => false)]

/-- Another leader adds an entry before the call compacts. -/
theorem snapshots_exact_trio : ∃ start s : Applier FlatLog,
    bootstrap ⟨0, 0⟩ trio HardFile.absent [] FlatLog.empty = .ok start ∧
      Reaches step Allowed start s ∧
      s.pending 0 = some ⟨1, 1⟩ ∧ s.core.lastLogIndex = 4 ∧ s.Exact := by
  have ran : ((bootstrap ⟨0, 0⟩ trio HardFile.absent [] FlatLog.empty).toOption.bind fun s =>
      execute step Allowed s (snapshotting ++
        [.other (.appendEntries ⟨0, 0⟩ ⟨2, 2, 3, 1, [⟨2, 4, .noop⟩], 4⟩)])).any
      (fun s => decide (s.pending 0 = some ⟨1, 1⟩ ∧ s.core.lastLogIndex = 4)) = true := by
    decide +kernel
  have empty : (bootstrap ⟨0, 0⟩ trio HardFile.absent [] FlatLog.empty).toOption.any
      (fun s => decide (s.core.Contiguous ∧ s.core.snapshot = ⟨0, 0⟩)) = true := by
    decide +kernel
  obtain ⟨start, s, found, reached, shown⟩ := execute_shows_from ran
  obtain ⟨pending, last⟩ := of_decide_eq_true shown
  have started := Except.of_toOption_some found
  rw [found, Option.any_some] at empty
  obtain ⟨contiguous, blank⟩ := of_decide_eq_true empty
  obtain ⟨ready, none⟩ := bootstrap_ready started contiguous fun _ => by rw [blank]
  exact ⟨start, s, started, reached, pending, last, snapshots_exact ready none reached⟩

/-- The log of a node on which the removal of the first segment file fails. -/
def stuck : Except Stop Log := (Log.open trio.segmentMaxBytes { Dir.empty "wal" with
  outcomes := List.replicate 12 .done ++ [.failed 0 "Permission denied"] }).1

/-- After the failed compaction the third entry is found at index 2. It is applied there, and the
next snapshot is of index 3 with the fallback term, though the entry at index 3 is of term 1. -/
theorem failed_compaction_misstamps : ∃ start s s' : Applier Log,
    stuck >>= bootstrap ⟨0, 0⟩ trio HardFile.absent [] = .ok start ∧
      start.core.Contiguous ∧ Reaches step Legal start s ∧ s.pending 0 = some ⟨1, 1⟩ ∧
      s.core.entryAt 2 = some ⟨1, 2, .noop⟩ ∧ s.core.entryAt 3 = some ⟨1, 3, .noop⟩ ∧
      (RaftCore.compact ⟨1, 1⟩ s.core).2.entryAt 2 = some ⟨1, 3, .noop⟩ ∧
      Reaches step Legal s s' ∧ s'.pending 1 = some ⟨3, 0⟩ := by
  have ran : ((stuck >>= bootstrap ⟨0, 0⟩ trio HardFile.absent []).toOption.bind fun s =>
      execute step Legal s snapshotting).any (fun s =>
        decide (s.pending 0 = some ⟨1, 1⟩ ∧ s.core.entryAt 2 = some ⟨1, 2, .noop⟩ ∧
          s.core.entryAt 3 = some ⟨1, 3, .noop⟩ ∧
          (RaftCore.compact ⟨1, 1⟩ s.core).2.entryAt 2 = some ⟨1, 3, .noop⟩ ∧
          ((execute step Legal s [.compact 0, .enter, .take 1, .store 1, .stamp 1,
            .write 1 (.written fun _ => false)]).any
              fun s => decide (s.pending 1 = some ⟨3, 0⟩)) = true)) = true := by
    decide +kernel
  have empty : (stuck >>= bootstrap ⟨0, 0⟩ trio HardFile.absent []).toOption.any
      (fun s => decide s.core.Contiguous) = true := by
    decide +kernel
  obtain ⟨start, s, found, reached, shown⟩ := execute_shows_from ran
  obtain ⟨pending, second, third, moved, after⟩ := of_decide_eq_true shown
  obtain ⟨s', later, misstamped⟩ := execute_shows after
  rw [found, Option.any_some] at empty
  exact ⟨start, s, s', Except.of_toOption_some found, of_decide_eq_true empty, reached, pending,
    second, third, moved, later, of_decide_eq_true misstamped⟩

end Applier
end WalKv
