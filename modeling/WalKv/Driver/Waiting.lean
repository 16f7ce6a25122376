import WalKv.Driver.Applying
import WalKv.Driver.Carrying

/-! Clients that wait for their entry. `wait_for_commit` looks at the published index, sleeps until
another one is sent and looks again; it gives up when none was sent for a while. Every waiter starts
with a copy of a receiver that has never seen a value, so its first sleep ends at once if any was sent
before. The channel keeps the last value only. When a sleep ends is left to `tokio`, of which two
laws are assumed. -/
namespace WalKv
open Transition

namespace Driver

/-- The index that a thread publishes next, once its batch is in the store. -/
def Pc.due : Pc → Option Nat
  | .storing _ => none
  | pc => pc.latest

theorem Pc.due_ite {p : Prop} [Decidable p] {pc pc' : Pc} (left : pc.due = none)
    (right : pc'.due = none) : (if p then pc else pc').due = none := by
  split_ifs
  · exact left
  · exact right

/-- What is published, or about to be, is in the store. -/
structure Due (s : State) : Prop where
  published : s.commitTx ≤ s.store.lastApplied
  threads : ∀ i pc l, s.pc i = some pc → pc.due = some l → l ≤ s.store.lastApplied

/-- What a section does to the store and to the commit channel. -/
structure Onward (s s' : State) (sent : Bool) : Prop where
  due : Due s'
  applied : s.store.lastApplied ≤ s'.store.lastApplied
  commitTx : sent = false → s'.commitTx = s.commitTx

/-- The section sends on the commit channel. -/
def Action.sends : Action → Bool
  | .publish _ => true
  | _ => false

namespace Due
variable {s s' : State} {thread : Nat} {pc : Pc}

theorem next (due : Due s) (moved : Moved s s' thread pc)
    (applied : s.store.lastApplied ≤ s'.store.lastApplied)
    (published : s'.commitTx ≤ s'.store.lastApplied)
    (own : ∀ l, pc.due = some l → l ≤ s'.store.lastApplied) : Due s' := by
  refine ⟨published, ?_⟩
  intro i q l found latest
  rcases moved i q found with ⟨_, rfl⟩ | ⟨_, here⟩
  · exact own l latest
  · exact (due.threads i q l here latest).trans applied

theorem goes (due : Due s) (moved : Moved s s' thread pc) (nothing : pc.due = none)
    (store : s'.store.lastApplied = s.store.lastApplied) (commitTx : s'.commitTx = s.commitTx) :
    Onward s s' false := by
  refine ⟨due.next moved store.ge (by rw [store, commitTx]; exact due.published) ?_, store.ge,
    fun _ => commitTx⟩
  intro l latest
  rw [nothing] at latest
  cases latest

theorem brings (due : Due s) {latest : Nat} {here : Pc} (found : s.pc thread = some here)
    (has : here.due = some latest) (moved : Moved s s' thread pc)
    (same : pc.due = some latest) (store : s'.store.lastApplied = s.store.lastApplied)
    (commitTx : s'.commitTx = s.commitTx) : Onward s s' false := by
  refine ⟨due.next moved store.ge (by rw [store, commitTx]; exact due.published) ?_, store.ge,
    fun _ => commitTx⟩
  intro l latest
  cases same.symm.trans latest
  rw [store]
  exact due.threads thread here _ found has

theorem store (due : Due s) (thread : Nat) (batch : List LogEntry) :
    Onward s (storeStep thread batch s) false := by
  obtain ⟨grows, covers⟩ := applyBatch_covers batch s.store
  refine ⟨due.next (moved_set rfl) grows (due.published.trans grows) ?_, grows, fun _ => rfl⟩
  intro l latest
  have last : (batch.getLast?.map LogEntry.index).getD 0 = l := by
    split_ifs at latest
    · exact Option.some.inj latest
    · exact Option.some.inj latest
  subst last
  cases ends : batch.getLast? with
  | none => exact Nat.zero_le _
  | some entry => exact covers entry (List.mem_of_getLast? ends)

theorem snapshot (due : Due s) {latest : Nat} (here : s.pc thread = some (.snapshotting latest))
    (outcome : SnapshotOutcome) : Onward s (snapshotStep thread latest outcome s) false := by
  cases outcome with
  | written removed => exact due.brings here rfl (moved_set rfl) rfl rfl rfl
  | failed | left => exact due.goes (moved_set rfl) (Pc.due_ite rfl rfl) rfl rfl

theorem compact (due : Due s) {latest : Nat} {snapshotMeta : SnapshotMeta}
    (here : s.pc thread = some (.compacting latest snapshotMeta)) :
    Onward s (compactStep thread latest snapshotMeta s) false := by
  unfold compactStep
  split
  · exact due.brings here rfl (moved_set rfl) rfl rfl rfl
  · exact due.goes (moved_set rfl) (Pc.due_ite rfl rfl) rfl rfl

theorem publish (due : Due s) {latest : Nat} (here : s.pc thread = some (.publishing latest)) :
    Onward s ({ s with commitTx := latest }.idle thread) true := by
  refine ⟨due.next (moved_set rfl) le_rfl (due.threads thread _ latest here rfl) ?_, le_rfl, ?_⟩
  · intro l own
    cases (Pc.due_ite rfl rfl).symm.trans own
  · rintro ⟨⟩

theorem take (due : Due s) (thread : Nat) : Onward s (takeStep thread s) false := by
  unfold takeStep
  dsimp only
  split_ifs
  · exact due.goes (moved_set rfl) (Pc.due_ite rfl rfl) rfl rfl
  · exact due.goes (moved_set rfl) rfl rfl rfl

variable [Bincode]

theorem vote (due : Due s) (peer : Nat) (reply : RequestVoteReply) (campaign : Campaign) :
    Onward s (voteStep peer reply campaign s) false := by
  unfold voteStep winStep
  split_ifs
  · split <;> exact due.goes (moved_set rfl) rfl rfl rfl
  · exact due.goes (moved_set rfl) rfl rfl rfl
  · split <;> exact due.goes (moved_set rfl) rfl rfl rfl
  · exact due.goes (moved_set rfl) rfl rfl rfl
  · exact due.goes (moved_set rfl) rfl rfl rfl

omit [Bincode] in
theorem reply (due : Due s) (peer lastSent : Nat) (reply : AppendEntriesReply)
    (broadcast : Broadcast) :
    Onward s (replyStep thread peer lastSent reply broadcast s) false := by
  unfold replyStep
  split
  · split
    · exact due.goes (moved_set rfl) rfl rfl rfl
    · exact due.goes (moved_set rfl) (Pc.due_ite rfl rfl) rfl rfl
  · split
    · exact due.goes (moved_set rfl) rfl rfl rfl
    · exact due.goes (moved_set rfl) rfl rfl rfl

theorem propose (due : Due s) (command : Command) :
    Onward s (proposeStep command s) false := by
  unfold proposeStep
  split_ifs
  · split <;> exact due.goes (moved_added rfl) rfl rfl rfl
  · exact due.goes (moved_added rfl) rfl rfl rfl

theorem step (due : Due s) {action : Action} (stepped : Driver.step s action = some s') :
    Onward s s' action.sends := by
  cases step_does stepped with
  | snapshot here => exact due.snapshot here _
  | compact here => exact due.compact here
  | publish here => exact due.publish here
  | tick =>
    unfold tickStep
    split_ifs <;> exact due.goes (moved_set rfl) rfl rfl rfl
  | campaign =>
    unfold campaignStep
    split <;> exact due.goes (moved_set rfl) rfl rfl rfl
  | vote => exact due.vote _ _ _
  | propose => exact due.propose _
  | build =>
    unfold buildStep
    split
    · exact due.goes (moved_set rfl) rfl rfl rfl
    · exact due.goes (moved_none rfl) rfl rfl rfl
  | reply => exact due.reply _ _ _ _
  | broadcastOver =>
    unfold broadcastOverStep
    split_ifs <;> exact due.goes (moved_set rfl) rfl rfl rfl
  | take => exact due.take _
  | store => exact due.store _ _
  | voteLost | campaignOver | broadcast | replyLost =>
    exact due.goes (moved_set rfl) rfl rfl rfl
  | abort | requestVote | appendEntries => exact due.goes (moved_none rfl) rfl rfl rfl

end Due

theorem due_bootstrap [Bincode] {clock : Clock} {cfg : Config} {file : HardFile} {dir : SnapshotDir}
    {log : FlatLog} {s : State} (booted : bootstrap clock cfg file dir log = .ok s) : Due s := by
  obtain ⟨core, restored, booted⟩ := Except.of_bind_ok booted
  cases booted
  obtain ⟨records, entries, _, _, _, same⟩ := RaftCore.restore_ok restored
  refine ⟨?_, ?_⟩
  · rw [same]
    exact (Store.opened_lastApplied _ _).ge
  · intro i pc l found due
    rw [List.mem_singleton.mp (List.mem_of_getElem? found)] at due
    cases due

end Driver

/-- What `tokio` decides about a receiver that has seen the first `seen` of `version` values:
whether `changed()` may be ready, and whether a `timeout` around it may elapse. -/
class Tokio where
  ready : (seen version : Nat) → Bool
  elapses : (seen version : Nat) → Bool

/-- `changed()` is ready once a value was sent that the receiver has not seen, and a `timeout` asks
its future before its clock. -/
class LawfulTokio [Tokio] : Prop where
  ready : ∀ {seen version : Nat}, seen < version → Tokio.ready seen version = true
  elapses : ∀ {seen version : Nat}, Tokio.elapses seen version = true → ¬ seen < version

/-- Where a call of `wait_for_commit` is. -/
inductive WaitStage where
  | looking
  | sleeping
  | returned
  /-- It gave up while the given index was published. -/
  | expired (shown : Nat)
  deriving DecidableEq, Repr

structure Waiter where
  index : Nat
  /-- Which sends its receiver has seen. -/
  seen : Nat
  stage : WaitStage
  deriving DecidableEq, Repr

/-- A driver with the calls that wait for its commit channel. -/
structure Channel where
  driver : Driver.State
  /-- How often the driver has sent on the channel. -/
  version : Nat
  waiters : List Waiter

namespace Channel

inductive Action where
  | drive (action : Driver.Action)
  | wait (index : Nat)
  | look (i : Nat)
  | wake (i : Nat)
  | expire (i : Nat)

def move (c : Channel) (i : Nat) (waiter : Waiter) : Channel :=
  { c with waiters := c.waiters.set i waiter }

section Steps
variable [Bincode] [Tokio]

def step (c : Channel) : Action → Option Channel
  | .drive action => (Driver.step c.driver action).map fun driver =>
      { c with driver, version := if action.sends then c.version + 1 else c.version }
  | .wait index => some { c with waiters := c.waiters ++ [⟨index, 0, .looking⟩] }
  | .look i =>
    match c.waiters[i]? with
    | some waiter =>
      if waiter.stage = .looking then
        if waiter.index ≤ c.driver.commitTx then some (c.move i { waiter with stage := .returned })
        else some (c.move i { waiter with stage := .sleeping })
      else none
    | none => none
  | .wake i =>
    match c.waiters[i]? with
    | some waiter =>
      if waiter.stage = .sleeping ∧ Tokio.ready waiter.seen c.version then
        some (c.move i { waiter with seen := c.version, stage := .looking })
      else none
    | none => none
  | .expire i =>
    match c.waiters[i]? with
    | some waiter =>
      if waiter.stage = .sleeping ∧ Tokio.elapses waiter.seen c.version then
        some (c.move i { waiter with stage := .expired c.driver.commitTx })
      else none
    | none => none

end Steps

/-- What a waiter has been told, or will find when it wakes. -/
def Told (c : Channel) (waiter : Waiter) : Prop :=
  waiter.seen ≤ c.version ∧
  match waiter.stage with
  | .looking => True
  | .sleeping => waiter.seen < c.version ∨ c.driver.commitTx < waiter.index
  | .returned => waiter.index ≤ c.driver.store.lastApplied
  | .expired shown => shown < waiter.index

structure Served (c : Channel) : Prop where
  due : Driver.Due c.driver
  told : ∀ waiter ∈ c.waiters, c.Told waiter

theorem Told.mono {c c' : Channel} {waiter : Waiter} (told : c.Told waiter)
    (applied : c.driver.store.lastApplied ≤ c'.driver.store.lastApplied)
    (sent : c.version < c'.version ∨ c'.version = c.version ∧ c'.driver.commitTx = c.driver.commitTx) :
    c'.Told waiter := by
  obtain ⟨seen, stage⟩ := told
  have later : c.version ≤ c'.version := by omega
  refine ⟨seen.trans later, ?_⟩
  cases at_ : waiter.stage with
  | looking => trivial
  | sleeping =>
    rw [at_] at stage
    rcases sent with newer | ⟨version, commitTx⟩
    · exact .inl (seen.trans_lt newer)
    · rw [version, commitTx]
      exact stage
  | returned =>
    rw [at_] at stage
    exact le_trans stage applied
  | expired shown =>
    rw [at_] at stage
    exact stage

namespace Served
variable {c c' : Channel}

theorem move (served : Served c) (i : Nat) {waiter : Waiter} (told : c.Told waiter) :
    Served (c.move i waiter) := by
  refine ⟨served.due, ?_⟩
  intro other inside
  rcases List.mem_or_eq_of_mem_set inside with old | rfl
  · exact served.told other old
  · exact told

variable [Bincode]

theorem drive (served : Served c) {action : Driver.Action} {driver : Driver.State}
    (stepped : Driver.step c.driver action = some driver) :
    Served { c with driver, version := if action.sends then c.version + 1 else c.version } := by
  obtain ⟨due, applied, commitTx⟩ := served.due.step stepped
  refine ⟨due, ?_⟩
  intro waiter inside
  refine (served.told waiter inside).mono applied ?_
  cases sends : action.sends with
  | true => exact .inl (Nat.lt_succ_self _)
  | false => exact .inr ⟨rfl, commitTx sends⟩

theorem step [Tokio] [LawfulTokio] (served : Served c) {action : Action}
    (stepped : c.step action = some c') : Served c' := by
  cases action with
  | drive action =>
    obtain ⟨driver, driven, rfl⟩ := Option.map_eq_some_iff.mp stepped
    exact served.drive driven
  | wait index =>
    cases stepped
    refine ⟨served.due, ?_⟩
    intro waiter inside
    rcases List.mem_append.mp inside with old | new
    · exact served.told waiter old
    · cases List.mem_singleton.mp new
      exact ⟨Nat.zero_le _, trivial⟩
  | look i =>
    simp only [Channel.step] at stepped
    split at stepped
    · rename_i waiter found
      have told := served.told waiter (List.mem_of_getElem? found)
      split_ifs at stepped with looking reached
      · cases stepped
        exact served.move i ⟨told.1, reached.trans served.due.published⟩
      · cases stepped
        exact served.move i ⟨told.1, .inr (Nat.lt_of_not_le reached)⟩
    · cases stepped
  | wake i =>
    simp only [Channel.step] at stepped
    split at stepped
    · split_ifs at stepped
      cases stepped
      exact served.move i ⟨le_rfl, trivial⟩
    · cases stepped
  | expire i =>
    simp only [Channel.step] at stepped
    split at stepped
    · rename_i waiter found
      split_ifs at stepped with ended
      cases stepped
      obtain ⟨seen, asleep⟩ := served.told waiter (List.mem_of_getElem? found)
      rw [ended.1] at asleep
      have short : c.driver.commitTx < waiter.index :=
        asleep.resolve_left (LawfulTokio.elapses ended.2)
      exact served.move i ⟨seen, short⟩
    · cases stepped

end Served

theorem wakes [Bincode] [Tokio] {c : Channel} {i : Nat} {waiter : Waiter}
    (found : c.waiters[i]? = some waiter) (asleep : waiter.stage = .sleeping)
    (ready : Tokio.ready waiter.seen c.version = true)
    (reached : waiter.index ≤ c.driver.commitTx) :
    ∃ c' c'', c.step (.wake i) = some c' ∧ c'.step (.look i) = some c'' ∧
      c''.waiters[i]? = some ⟨waiter.index, c.version, .returned⟩ := by
  have inside := (List.getElem?_eq_some_iff.mp found).1
  let awake : Waiter := ⟨waiter.index, c.version, .looking⟩
  have there : (c.move i awake).waiters[i]? = some awake := by
    simp [Channel.move, inside]
  refine ⟨c.move i awake, (c.move i awake).move i { awake with stage := .returned }, ?_, ?_, ?_⟩
  · simp only [Channel.step, found]
    rw [if_pos ⟨asleep, ready⟩]
  · have still : awake.index ≤ (c.move i awake).driver.commitTx := reached
    simp only [Channel.step, there]
    rw [if_pos rfl, if_pos still]
  · simp [Channel.move, inside, awake]

/-- A call returns only when its entry is in the store, and gives up only when the published index
was still short of it. A sleeping call whose index is published cannot give up; it wakes up, and
returns unless a smaller index is sent first. -/
theorem no_wakeup_is_lost [Bincode] [Tokio] [LawfulTokio] {clock : Clock} {cfg : Config} {file : HardFile}
    {dir : SnapshotDir} {log : FlatLog} {driver : Driver.State} {c : Channel}
    (booted : Driver.bootstrap clock cfg file dir log = .ok driver)
    (run : Reaches step (fun _ _ => True) ⟨driver, 0, []⟩ c) :
    ∀ i waiter, c.waiters[i]? = some waiter →
      (waiter.stage = .returned → waiter.index ≤ c.driver.store.lastApplied) ∧
      (∀ shown, waiter.stage = .expired shown → shown < waiter.index) ∧
      (waiter.stage = .sleeping → waiter.index ≤ c.driver.commitTx →
        c.step (.expire i) = none ∧
        ∃ c' c'', c.step (.wake i) = some c' ∧ c'.step (.look i) = some c'' ∧
          c''.waiters[i]? = some ⟨waiter.index, c.version, .returned⟩) := by
  have served : Served c := run.invariant ⟨Driver.due_bootstrap booted, by simp⟩
    fun served _ stepped => served.step stepped
  intro i waiter found
  obtain ⟨_, told⟩ := served.told waiter (List.mem_of_getElem? found)
  refine ⟨?_, ?_, ?_⟩
  · intro returned
    rw [returned] at told
    exact told
  · intro shown expired
    rw [expired] at told
    exact told
  · intro asleep reached
    rw [asleep] at told
    have unseen : waiter.seen < c.version := told.resolve_right (Nat.not_lt.mpr reached)
    refine ⟨?_, wakes found asleep (LawfulTokio.ready unseen) reached⟩
    simp only [Channel.step, found]
    rw [if_neg fun ended => LawfulTokio.elapses ended.2 unseen]

/-- Sleeps end exactly as the laws say. -/
instance promptTokio : Tokio :=
  ⟨fun seen version => decide (seen < version), fun seen version => decide (¬ seen < version)⟩

instance : LawfulTokio := ⟨decide_eq_true, of_decide_eq_true⟩

/-- Two proposals publish in the wrong order, each before its own call begins to wait. -/
def crossedCalls : List Action :=
  Driver.proposing.map .drive ++
  [.drive (.store 1), .drive (.store 2), .drive (.publish 2), .wait 3, .drive (.publish 1), .wait 2,
    .look 0, .look 1, .wake 0, .look 0, .expire 0]

/-- The older index is published last. The call for the newer one then gives up although its entry
is in the store and was published. -/
theorem no_wakeup_is_lost_crossed : ∃ c,
    Reaches step (fun _ _ => True) ⟨Driver.fresh, 0, []⟩ c ∧
    c.waiters = [⟨3, 2, .expired 2⟩, ⟨2, 0, .returned⟩] ∧ c.driver.store.lastApplied = 3 ∧
    2 < 3 ∧ 2 ≤ c.driver.store.lastApplied := by
  have ran : ((execute step (fun _ _ => True) ⟨Driver.fresh, 0, []⟩ crossedCalls).any
      fun c => decide (c.waiters = [⟨3, 2, .expired 2⟩, ⟨2, 0, .returned⟩] ∧
        c.driver.store.lastApplied = 3)) = true := by
    decide +kernel
  obtain ⟨c, reached, shown⟩ := execute_shows ran
  obtain ⟨waiters, applied⟩ := of_decide_eq_true shown
  have calls := no_wakeup_is_lost Driver.fresh_bootstrap reached
  refine ⟨c, reached, waiters, applied, ?_, ?_⟩
  · exact (calls 0 ⟨3, 2, .expired 2⟩ (by rw [waiters]; rfl)).2.1 2 rfl
  · exact (calls 1 ⟨2, 0, .returned⟩ (by rw [waiters]; rfl)).1 rfl

end Channel
end WalKv
