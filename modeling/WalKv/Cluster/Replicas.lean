import WalKv.Cluster.History
import WalKv.Cluster.Service
import WalKv.Store.Replay

/-! Replicas hold one history. As long as batches reach each store in the order they were taken,
whatever restarts, elections and snapshots happen, there is one list of entries such that every
store and every snapshot file of every node is what a beginning of that list makes. -/
namespace WalKv
open RaftCore

namespace Service
variable {m : Membership} {s s' : Service} {n : Nat}

/-- The cluster runs orderly, and batches reach a store in order. -/
def InOrder (s : Service) : Action → Prop
  | .act action => Orderly s.cluster action
  | .apply n batch => ∀ x ∈ batch.head?, x.index = (s.store n).lastApplied + 1
  | _ => True

instance (s : Service) : (action : Action) → Decidable (InOrder s action)
  | .act action => inferInstanceAs (Decidable (Orderly s.cluster action))
  | .apply .. => inferInstanceAs (Decidable (∀ x ∈ _, _))
  | .snapshot .. | .compact .. | .publish .. | .get .. | .check .. | .read .. => isTrue trivial

section Runs
variable [Bincode]

theorem perform_longer {call : WalKv.Action} {c : Cluster}
    (stepped : WalKv.step m s.cluster call = some c) : ∃ more, c.trace = s.trace ++ more := by
  obtain ⟨_, e, _, rfl⟩ := step_ok stepped
  exact ⟨e.events, rfl⟩

theorem step_longer {action : Action} (stepped : Service.step m s action = some s') :
    ∃ more, s'.trace = s.trace ++ more := by
  cases step_does stepped with
  | act acted | restart acted | compact acted | publish _ acted => exact perform_longer acted
  | apply | snapshot | get | passed | redirected | read => exact ⟨[], (List.append_nil _).symm⟩

omit [Bincode] in
/-- One node's store changes. -/
theorem stores_update (stores : ∀ v ∈ m.members, ∃ h, Handed s.trace h ∧ Driver.Applied h (s.store v))
    {store : Store} {h : List LogEntry} (handed : Handed s.trace h) (applied : Driver.Applied h store) :
    ∀ v ∈ m.members, ∃ h, Handed s.trace h ∧
      Driver.Applied h (Function.update s.store n store v) := by
  intro v voter
  by_cases here : v = n
  · subst here
    exact ⟨h, handed, by simpa using applied⟩
  · simpa [here] using stores v voter

/-- Batches on their way to a store were handed out, and stores hold what was handed out. -/
structure Replicates (m : Membership) (s : Service) : Prop where
  refines : ∃ a, Refines m s.cluster a
  batches : ∀ n ∈ m.members, ∀ batch ∈ (s.cluster.server n).taken,
    ∃ start, Batched s.trace n start batch
  stores : ∀ n ∈ m.members, ∃ h, Handed s.trace h ∧ Driver.Applied h (s.store n)

/-- The cluster takes a step and keeps what was handed out. -/
structure Moved (m : Membership) (s : Service) (c : Cluster) : Prop where
  refines : ∃ a, Refines m c a
  batches : ∀ n ∈ m.members, ∀ batch ∈ (c.server n).taken, ∃ start, Batched c.trace n start batch
  longer : ∃ more, c.trace = s.trace ++ more

namespace Replicates

theorem moved [LawfulBincode] (rep : Replicates m s) {action : WalKv.Action} {c : Cluster}
    (orderly : Orderly s.cluster action) (stepped : WalKv.step m s.cluster action = some c) :
    Moved m s c := by
  obtain ⟨a, rel⟩ := rep.refines
  obtain ⟨leading, served, clean⟩ := orderly
  refine ⟨refines_step rel leading served clean stepped, ?_, ?_⟩
  · obtain ⟨member, e, acted, rfl⟩ := step_ok stepped
    have origin := effect_originates rel member acted
    have kept {v start : Nat} {batch : List LogEntry} (batched : Batched s.trace v start batch) :
        Batched (s.cluster.apply action.node e).trace v start batch :=
      fun j x found => List.mem_append_left _ (batched j x found)
    intro v voter batch held
    by_cases acting : v = action.node
    · subst acting
      rw [s.cluster.apply_server_self] at held
      rcases origin.taken batch held with before | ⟨start, batched⟩
      · obtain ⟨start, batched⟩ := rep.batches _ voter batch before
        exact ⟨start, kept batched⟩
      · exact ⟨start, fun j x found => List.mem_append_right _ (batched j x found)⟩
    · rw [s.cluster.apply_server_other e acting] at held
      obtain ⟨start, batched⟩ := rep.batches v voter batch held
      exact ⟨start, kept batched⟩
  · exact perform_longer stepped

theorem unmoved (rep : Replicates m s) : Moved m s s.cluster :=
  ⟨rep.refines, rep.batches, [], (List.append_nil _).symm⟩

theorem next {c : Cluster} {store : Nat → Store} (moved : Moved m s c)
    (stores : ∀ n ∈ m.members, ∃ h, Handed s.trace h ∧ Driver.Applied h (store n))
    (stored : Nat → List (List LogEntry)) (gets : List Get) :
    Replicates m ⟨c, store, stored, gets⟩ := by
  refine ⟨moved.refines, moved.batches, ?_⟩
  intro n member
  obtain ⟨h, handed, applied⟩ := stores n member
  obtain ⟨more, grown⟩ := moved.longer
  refine ⟨h, ?_, applied⟩
  rw [trace, grown]
  exact handed.mono more

theorem step [LawfulBincode] (rep : Replicates m s) {action : Action} (ordered : InOrder s action)
    (stepped : Service.step m s action = some s') : Replicates m s' := by
  cases step_does stepped with
  | act acted => exact next (rep.moved ordered acted) rep.stores _ _
  | restart acted =>
    obtain ⟨h, handed, applied⟩ := rep.stores _ (step_ok acted).1
    exact next (rep.moved ordered acted)
      (stores_update rep.stores handed (.opened _ applied.files)) _ _
  | @apply n batch member held =>
    obtain ⟨a, rel⟩ := rep.refines
    obtain ⟨h, handed, applied⟩ := rep.stores n member
    obtain ⟨start, batched⟩ := rep.batches n member batch held
    obtain ⟨h', handed', applied'⟩ := apply_in_order rel handed applied batched ordered
    exact next rep.unmoved (stores_update rep.stores handed' applied') _ _
  | @snapshot n member term outcome =>
    obtain ⟨h, handed, applied⟩ := rep.stores n member
    exact next rep.unmoved (stores_update rep.stores handed (applied.takeSnapshot _ outcome)) _ _
  | @compact n c acted =>
    have orderly : Orderly s.cluster (.compact n (s.store n).lastSnapshot.lastIncludedIndex) :=
      ⟨trivial, trivial, trivial⟩
    exact next (rep.moved orderly acted) rep.stores _ _
  | @publish n batch c _ acted =>
    have orderly : Orderly s.cluster (.publish n batch) := ⟨trivial, trivial, trivial⟩
    exact next (rep.moved orderly acted) rep.stores _ _
  | get | passed | redirected | read => exact next rep.unmoved rep.stores _ _

end Replicates

theorem replicates_initial (start : Initial m s) : Replicates m s where
  refines := ⟨_, refines_initial start.cluster⟩
  batches n member batch held := by
    obtain ⟨clock, core, _, server⟩ := start.cluster.server n member
    simp [server, Server.fresh] at held
  stores n member := by
    rw [start.store n member]
    refine ⟨[], ?_, .opened _ ?_⟩ <;> simp [Handed]

theorem Replicates.common (rep : Replicates m s) (nodes : List Nat)
    (members : ∀ n ∈ nodes, n ∈ m.members) :
    ∃ h, Handed s.trace h ∧ ∀ n ∈ nodes, Driver.Applied h (s.store n) := by
  obtain ⟨a, rel⟩ := rep.refines
  induction nodes with
  | nil => exact ⟨[], by simp [Handed], by simp⟩
  | cons n rest ih =>
    obtain ⟨h, handed, applied⟩ := rep.stores n (members n (by simp))
    obtain ⟨h', handed', others⟩ := ih fun v inside => members v (List.mem_cons_of_mem _ inside)
    obtain ⟨whole, joined, left, right⟩ := handed.join handed' rel
    refine ⟨whole, joined, ?_⟩
    intro v inside
    rcases List.mem_cons.mp inside with rfl | other
    · exact applied.mono left
    · exact (others v other).mono right

/-- Replicas agree: there is one list of entries, each handed out for its position, such that the
table of every node and every snapshot file of every node holds what the entries of that list up
to its own last index make. -/
theorem replicas_hold_one_history [LawfulBincode] (run : Reachable m InOrder s) :
    ∃ l, Handed s.trace l ∧ ∀ n ∈ m.members,
      (s.store n).lastApplied ≤ l.length ∧
      (s.store n).memtable.map = replay (l.take (s.store n).lastApplied) ∧
      ∀ file ∈ (s.store n).snapshotDir, file.meta'.lastIncludedIndex ≤ l.length ∧
        file.data = replay (l.take file.meta'.lastIncludedIndex) := by
  obtain ⟨start, initial, run⟩ := run
  have rep : Replicates m s := run.invariant (replicates_initial initial)
    fun rep ordered stepped => rep.step ordered stepped
  obtain ⟨l, handed, applied⟩ := rep.common m.members fun _ member => member
  refine ⟨l, handed, ?_⟩
  intro n member
  have holds := applied n member
  refine ⟨holds.table.within, holds.table.map, ?_⟩
  intro file inside
  have folded := holds.files file inside
  exact ⟨folded.within, folded.map⟩

end Runs

/-- Three nodes that have just been started. -/
def booted : Service :=
  ⟨boot trio ⟨0, 0⟩, fun n => .opened (trio.config n).snapshotThreshold [], fun _ => [], []⟩

theorem booted_shows {guard : Service → Action → Prop} [∀ s a, Decidable (guard s a)]
    {actions : List Action} {p : Service → Bool}
    (checked : (Transition.execute (step trio) guard booted actions).any p = true) :
    ∃ s, Reachable trio guard s ∧ p s = true := by
  obtain ⟨s, run, holds⟩ := Transition.execute_shows checked
  exact ⟨s, ⟨_, ⟨boot_initial trio ⟨0, 0⟩ trio_timed, fun _ _ => rfl, fun _ _ => rfl, rfl⟩, run⟩, holds⟩

/-- The client's write through node 1, which leads the first term. -/
def first : List LogEntry := [⟨1, 1, .noop⟩, ⟨1, 2, .put [1] [1]⟩]

/-- Node 1 commits the write with node 2, applies it and answers the client; node 3 has it too. -/
def written : List Action :=
  proposed.map .act ++
  [.act (.build 1 2), .act (.build 1 3),
    .act (.appendEntries ⟨1, 2, ⟨1, 1, 0, 0, first, 0⟩⟩ ⟨0, 0⟩),
    .act (.appendEntries ⟨1, 3, ⟨1, 1, 0, 0, first, 0⟩⟩ ⟨0, 0⟩),
    .act (.appendAnswer ⟨2, 1, 1, 2, ⟨1, true, 0⟩⟩), .act (.take 1), .apply 1 first,
    .publish 1 first, .act (.acknowledge 1 ⟨1, 2, .put [1] [1]⟩)]

/-- Node 2 wins the second term with the vote of node 3. -/
def succeeded : List Action :=
  [.act (.timeout 2 ⟨0, 0⟩), .act (.requestVote ⟨2, 3, ⟨2, 2, 2, 1⟩⟩ ⟨0, 0⟩),
    .act (.voteAnswer ⟨3, 2, 2, ⟨2, true⟩⟩)]

def second : List LogEntry := [⟨2, 3, .noop⟩, ⟨2, 4, .put [1] [2]⟩]

/-- A client overwrites the value through node 2, which commits with node 3. -/
def rewritten : List Action :=
  [.act (.propose 2 (.put [1] [2])), .act (.build 2 3),
    .act (.appendEntries ⟨2, 3, ⟨2, 2, 2, 1, second, 0⟩⟩ ⟨0, 0⟩),
    .act (.appendAnswer ⟨3, 2, 2, 4, ⟨2, true, 0⟩⟩), .act (.take 2), .apply 2 (first ++ second),
    .publish 2 (first ++ second), .act (.acknowledge 2 ⟨2, 4, .put [1] [2]⟩)]

/-- Nodes 1 and 2 have both applied the first write, node 2 the second as well. -/
theorem replicas_hold_one_history_rewritten : ∃ s, Reachable trio InOrder s ∧
    (s.store 1).lastApplied = 2 ∧ (s.store 2).lastApplied = 4 ∧
    ∃ l : List LogEntry, (s.store 1).memtable.map = replay (l.take 2) ∧
      (s.store 2).memtable.map = replay (l.take 4) := by
  have ran : (Transition.execute (Service.step trio) InOrder booted
      (written ++ succeeded ++ rewritten)).any (fun s =>
        decide ((s.store 1).lastApplied = 2 ∧ (s.store 2).lastApplied = 4)) = true := by
    decide +kernel
  obtain ⟨s, reached, shown⟩ := booted_shows ran
  obtain ⟨one, two⟩ := of_decide_eq_true shown
  obtain ⟨l, _, holds⟩ := replicas_hold_one_history reached
  have first := (holds 1 (by decide)).2.1
  have second := (holds 2 (by decide)).2.1
  rw [one] at first
  rw [two] at second
  exact ⟨s, reached, one, two, l, first, second⟩

end Service
end WalKv
