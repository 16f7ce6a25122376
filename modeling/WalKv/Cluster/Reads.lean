import WalKv.Cluster.Replicas

/-! When reads are linearizable. A node that leads the newest term, has committed an entry of
that term and has applied all it knows to be committed has every write in its store that any
client was told of. -/
namespace WalKv
open RaftCore

variable {m : Membership} {c : Cluster} {n : Nat}

/-- The answer is the value of the key in a state that includes each write to it that was
acknowledged before the request was sent. -/
def Linearized (trace : List Event) (get : Get) (response : GetResponse) : Prop :=
  ∀ k x, .acknowledged k x ∈ trace.take get.sent → x.command.touches get.key →
    ∃ l, Handed trace l ∧ l[x.index - 1]? = some x ∧
      response.result = (replay l).lookup get.key

structure Get.Sound (m : Membership) (trace : List Event) (store : Nat → Store) (get : Get) :
    Prop where
  member : get.node ∈ m.members
  sent : get.sent ≤ trace.length
  passed : get.state.serving = true → ∀ k x, .acknowledged k x ∈ trace.take get.sent →
    x.index ≤ (store get.node).lastApplied
  answered : ∀ response, get.state = .answered response → Linearized trace get response

theorem Get.Sound.mono {trace : List Event} {store : Nat → Store} {get : Get}
    (sound : get.Sound m trace store) (more : List Event) : get.Sound m (trace ++ more) store := by
  have same : (trace ++ more).take get.sent = trace.take get.sent :=
    List.take_append_of_le_length sound.sent
  refine ⟨sound.member, sound.sent.trans (by simp), ?_, fun response answered k x event touches => ?_⟩
  · rw [same]
    exact sound.passed
  · rw [same] at event
    obtain ⟨l, handed, inside, value⟩ := sound.answered response answered k x event touches
    exact ⟨l, handed.mono more, inside, value⟩

theorem Get.Sound.store {trace : List Event} {store store' : Nat → Store} {get : Get}
    (sound : get.Sound m trace store) (kept : get.state.serving = true →
      (store get.node).lastApplied ≤ (store' get.node).lastApplied) : get.Sound m trace store' where
  member := sound.member
  sent := sound.sent
  passed serving k x event := (sound.passed serving k x event).trans (kept serving)
  answered := sound.answered

/-- The term that an event shows to be won. -/
def Event.wonTerm : Event → Option Nat
  | .elected core => some core.hard.currentTerm
  | _ => none

namespace Service
variable {s s' : Service}

/-- Batches reach a store in order, and acknowledged writes are committed. -/
def Tidy (s : Service) : Action → Prop
  | .act action => Undisturbed s.cluster action
  | .apply n batch => ∀ x ∈ batch.head?, x.index = (s.store n).lastApplied + 1
  | _ => True

instance (s : Service) : (action : Action) → Decidable (Tidy s action)
  | .act action => inferInstanceAs (Decidable (Undisturbed s.cluster action))
  | .apply .. => inferInstanceAs (Decidable (∀ x ∈ _, _))
  | .snapshot .. | .compact .. | .publish .. | .get .. | .check .. | .read .. => isTrue trivial

/-- A node that passes the check leads the newest term that has been won. -/
def Newest (s : Service) : Action → Prop
  | .check i => ∀ get ∈ s.gets[i]?, (s.core get.node).role = .leader →
      ∀ event ∈ s.trace, ∀ term ∈ event.wonTerm, term ≤ (s.core get.node).hard.currentTerm
  | _ => True

instance (s : Service) : (action : Action) → Decidable (Newest s action)
  | .check _ => inferInstanceAs (Decidable (∀ get ∈ _, _ → ∀ event ∈ _, ∀ term ∈ _, _))
  | .act .. | .apply .. | .snapshot .. | .compact .. | .publish .. | .get .. | .read .. =>
    isTrue trivial

/-- A node that passes the check has committed an entry of its term and applied all that it
knows to be committed. -/
def CaughtUp (s : Service) : Action → Prop
  | .check i => ∀ get ∈ s.gets[i]?, (s.core get.node).role = .leader →
      (s.core get.node).termAt (s.core get.node).commitIndex =
        some (s.core get.node).hard.currentTerm ∧
      (s.core get.node).commitIndex ≤ (s.store get.node).lastApplied
  | _ => True

instance (s : Service) : (action : Action) → Decidable (CaughtUp s action)
  | .check _ => inferInstanceAs (Decidable (∀ get ∈ _, _ → _ ∧ _))
  | .act .. | .apply .. | .snapshot .. | .compact .. | .publish .. | .get .. | .read .. =>
    isTrue trivial

def Fresh (s : Service) (action : Action) : Prop :=
  Tidy s action ∧ Newest s action ∧ CaughtUp s action

instance (s : Service) (action : Action) : Decidable (Fresh s action) :=
  inferInstanceAs (Decidable (_ ∧ _ ∧ _))

section Runs
variable [Bincode]

omit [Bincode] in
theorem Tidy.inOrder (tidy : Tidy s action) : InOrder s action := by
  cases action with
  | act call => exact tidy.1
  | apply => exact tidy
  | snapshot | compact | publish | get | check | read => trivial

/-- An action of the service is one of the cluster or leaves it alone. -/
theorem Tidy.cluster (tidy : Tidy s action) (stepped : step m s action = some s') :
    s'.cluster = s.cluster ∨ ∃ call, Undisturbed s.cluster call ∧
      WalKv.step m s.cluster call = some s'.cluster := by
  cases step_does stepped with
  | act acted | restart acted => exact .inr ⟨_, tidy, acted⟩
  | @compact n c acted =>
    exact .inr ⟨.compact n (s.store n).lastSnapshot.lastIncludedIndex,
      ⟨⟨trivial, trivial, trivial⟩, trivial⟩, acted⟩
  | @publish n batch c _ acted =>
    exact .inr ⟨.publish n batch, ⟨⟨trivial, trivial, trivial⟩, trivial⟩, acted⟩
  | apply | snapshot | get | passed | redirected | read => exact .inl rfl

theorem sane_step [LawfulBincode] (sane : ∃ a, Sane m s.cluster a) (tidy : Tidy s action)
    (stepped : step m s action = some s') : ∃ a, Sane m s'.cluster a := by
  obtain ⟨a, sane⟩ := sane
  rcases tidy.cluster stepped with same | ⟨call, allowed, acted⟩
  · exact ⟨a, same ▸ sane⟩
  · exact sane.step allowed acted

structure Serves (m : Membership) (s : Service) : Prop extends Replicates m s where
  sane : ∃ a, Sane m s.cluster a
  gets : ∀ get ∈ s.gets, get.Sound m s.trace s.store

namespace Serves

theorem update (serves : Serves m s) {store : Store}
    (longer : (s.store n).lastApplied ≤ store.lastApplied) :
    ∀ get ∈ s.gets, get.Sound m s.trace (Function.update s.store n store) := by
  intro get inside
  refine (serves.gets get inside).store fun _ => ?_
  by_cases here : get.node = n
  · subst here
    simpa using longer
  · simp [here]

theorem move (serves : Serves m s) {i : Nat} {get : Get} {state : GetState}
    (sound : ({ get with state } : Get).Sound m s.trace s.store) :
    ∀ other ∈ (s.move i get state).gets, other.Sound m s.trace s.store := by
  intro other inside
  rcases List.mem_or_eq_of_mem_set inside with old | rfl
  · exact serves.gets other old
  · exact sound

theorem check (serves : Serves m s) {i : Nat} {get : Get} (found : s.gets[i]? = some get)
    (newest : Newest s (.check i)) (ready : CaughtUp s (.check i))
    (leads : (s.core get.node).isLeader = true) (leaderHint : Nat) :
    ({ get with state := .passed leaderHint } : Get).Sound m s.trace s.store := by
  obtain ⟨a, sane⟩ := serves.sane
  have sound := serves.gets get (List.mem_of_getElem? found)
  have leads : (s.core get.node).role = .leader := of_decide_eq_true leads
  obtain ⟨own, applied⟩ := ready get found leads
  refine ⟨sound.member, sound.sent, fun _ k x event => ?_, nofun⟩
  refine (sane.told.reached sane.rel sane.waiting sound.member leads ?_ own
    (List.mem_of_mem_take event)).trans applied
  exact fun core elected => newest get found leads _ elected _ rfl

theorem read (serves : Serves m s) {i leaderHint : Nat} {get : Get} (found : s.gets[i]? = some get)
    (serving : get.state = .passed leaderHint) :
    ({ get with state := .answered (.ofValue leaderHint ((s.store get.node).get get.key)) } :
      Get).Sound m s.trace s.store := by
  obtain ⟨a, sane⟩ := serves.sane
  have sound := serves.gets get (List.mem_of_getElem? found)
  obtain ⟨h, handed, applied⟩ := serves.stores get.node sound.member
  refine ⟨sound.member, sound.sent, nofun, ?_⟩
  rintro _ ⟨⟩ k x event _
  have within : (s.store get.node).lastApplied ≤ h.length := applied.table.within
  have inside : (h.take (s.store get.node).lastApplied)[x.index - 1]? = some x := by
    refine Handed.has (handed.shorter (List.take_prefix _ _)) sane.rel
      (sane.waiting.acknowledged (List.mem_of_mem_take event)).1 ?_
    rw [List.length_take_of_le within]
    exact sound.passed (by rw [serving]; rfl) k x event
  refine ⟨_, handed.shorter (List.take_prefix _ _), inside, ?_⟩
  rw [GetResponse.result_ofValue, Store.get, MemTable.get, applied.table.map]
  rfl

end Serves

variable [LawfulBincode]

theorem serves_step {action : Action} (serves : Serves m s) (fresh : Fresh s action)
    (stepped : step m s action = some s') : Serves m s' := by
  obtain ⟨tidy, newest, ready⟩ := fresh
  refine ⟨serves.toReplicates.step tidy.inOrder stepped, sane_step serves.sane tidy stepped, ?_⟩
  obtain ⟨more, grown⟩ := step_longer stepped
  suffices now : ∀ get ∈ s'.gets, get.Sound m s.trace s'.store by
    intro get inside
    rw [grown]
    exact (now get inside).mono more
  cases step_does stepped with
  | act | compact | publish => exact serves.gets
  | @restart call =>
    intro get inside
    obtain ⟨old, kept⟩ := List.mem_filter.mp inside
    refine (serves.gets get old).store fun serving => ?_
    have elsewhere : get.node ≠ call.node := by simpa [serving] using kept
    simp [reopen, elsewhere]
  | apply => exact serves.update (Driver.applyBatch_covers _ _).1
  | snapshot _ _ outcome => exact serves.update (Store.takeSnapshot_lastApplied _ _ outcome).ge
  | get member key =>
    intro get inside
    rcases List.mem_append.mp inside with old | new
    · exact serves.gets get old
    · cases List.mem_singleton.mp new
      exact ⟨member, le_rfl, nofun, nofun⟩
  | passed found leads => exact serves.move (serves.check found newest ready leads _)
  | redirected found =>
    have sound := serves.gets _ (List.mem_of_getElem? found)
    exact serves.move ⟨sound.member, sound.sent, nofun, nofun⟩
  | read found serving => exact serves.move (serves.read found serving)

omit [LawfulBincode] in
theorem serves_initial (start : Initial m s) : Serves m s where
  toReplicates := replicates_initial start
  sane := ⟨_, sane_initial start.cluster⟩
  gets get inside := by simp [start.gets] at inside

/-- Every read that a node answers after passing the leader check returns the value in a state
that includes the writes acknowledged before it was sent. -/
theorem reads_linearizable (run : Reachable m Fresh s) {get : Get} (inside : get ∈ s.gets)
    {response : GetResponse} (answered : get.state = .answered response) :
    Linearized s.trace get response := by
  obtain ⟨start, initial, run⟩ := run
  have serves := run.invariant (serves_initial initial) serves_step
  exact (serves.gets get inside).answered response answered

end Runs
end Service

/-- The index that an event shows an entry to be handed out for. -/
def Event.handedAt : Event → Option Nat
  | .applied _ index _ => some index
  | _ => none

theorem not_linearized {trace : List Event} {get : Get} {response : GetResponse} {k : Nat}
    {x : LogEntry} {value : Bytes} (event : .acknowledged k x ∈ trace.take get.sent)
    (write : x.command = .put get.key value) (first : 1 ≤ x.index)
    (last : ∀ event ∈ trace, ∀ i ∈ event.handedAt, i ≤ x.index)
    (other : response.result ≠ some value) : ¬ Linearized trace get response := by
  intro linearized
  obtain ⟨l, handed, inside, returned⟩ := linearized k x event (by rw [write]; exact rfl)
  have reach := (List.getElem?_eq_some_iff.mp inside).1
  have whole : l = l.take (x.index - 1) ++ [x] := by
    have here : l[x.index - 1] = x := (List.getElem?_eq_some_iff.mp inside).2
    have split := List.take_append_getElem reach
    rw [here, Nat.sub_add_cancel first] at split
    rw [split]
    refine (List.take_of_length_le ?_).symm
    by_contra longer
    obtain ⟨j, shown⟩ := handed x.index l[x.index] (List.getElem?_eq_getElem (by omega))
    exact absurd (last _ shown _ rfl) (by omega)
  rw [whole, replay_concat, write, Command.run, Finmap.lookup_insert] at returned
  exact other returned

namespace Service

/-- Some node passed the check and returned a value that misses an acknowledged write. -/
def Stale (s : Service) : Prop :=
  ∃ get ∈ s.gets, ∃ response, get.state = .answered response ∧ ¬ Linearized s.trace get response

/-- The answer to a request is not that of the last write, which was acknowledged before. -/
def misses (k : Nat) (x : LogEntry) (value : Bytes) (s : Service) (get : Get) : Bool :=
  match get.state with
  | .answered response => decide (x.command = .put get.key value ∧ response.result ≠ some value ∧
      (k, none, x) ∈ (s.trace.take get.sent).filterMap Event.seen ∧
      ∀ event ∈ s.trace, ∀ i ∈ event.handedAt, i ≤ x.index)
  | _ => false

theorem stale_of_misses {s : Service} {k : Nat} {x : LogEntry} {value : Bytes}
    (first : 1 ≤ x.index) (missed : s.gets.any (misses k x value s) = true) : Stale s := by
  obtain ⟨get, inside, missed⟩ := List.any_eq_true.mp missed
  unfold misses at missed
  split at missed
  · rename_i response answered
    obtain ⟨write, other, told, last⟩ := of_decide_eq_true missed
    exact ⟨get, inside, response, answered,
      not_linearized (Event.acknowledged_of_seen told) write first last other⟩
  · cases missed

def reading (n : Nat) : List Action := [.get n [1], .check 0, .read 0]

theorem reads_linearizable_successor : ∃ s get, Reachable trio Fresh s ∧ get ∈ s.gets ∧
    get.state = .answered ⟨true, [2], 2⟩ ∧
    .acknowledged 2 ⟨2, 4, .put [1] [2]⟩ ∈ s.trace.take get.sent ∧
    Linearized s.trace get ⟨true, [2], 2⟩ := by
  have ran : (Transition.execute (step trio) Fresh booted
      (written ++ succeeded ++ rewritten ++ reading 2)).any (fun s => s.gets.any fun get =>
        decide (get.state = .answered ⟨true, [2], 2⟩ ∧ (2, none, ⟨2, 4, .put [1] [2]⟩) ∈
          (s.trace.take get.sent).filterMap Event.seen)) = true := by
    decide +kernel
  obtain ⟨s, reached, shown⟩ := booted_shows ran
  obtain ⟨get, inside, shown⟩ := List.any_eq_true.mp shown
  obtain ⟨answered, told⟩ := of_decide_eq_true shown
  exact ⟨s, get, reached, inside, answered, Event.acknowledged_of_seen told,
    reads_linearizable reached inside answered⟩

/-- A leader behind a partition misses the write of its successor, and a new leader that has
not applied its log yet misses the write of its predecessor. -/
theorem reads_stale :
    (∃ s, Reachable trio (fun s action => Tidy s action ∧ CaughtUp s action) s ∧ Stale s) ∧
      ∃ s, Reachable trio (fun s action => Tidy s action ∧ Newest s action) s ∧ Stale s := by
  have deposed : (Transition.execute (step trio) (fun s action => Tidy s action ∧ CaughtUp s action)
      booted (written ++ succeeded ++ rewritten ++ reading 1)).any (fun s =>
        s.gets.any (misses 2 ⟨2, 4, .put [1] [2]⟩ [2] s)) = true := by
    decide +kernel
  have elected : (Transition.execute (step trio) (fun s action => Tidy s action ∧ Newest s action)
      booted (written ++ succeeded ++ reading 2)).any (fun s =>
        s.gets.any (misses 1 ⟨1, 2, .put [1] [1]⟩ [1] s)) = true := by
    decide +kernel
  obtain ⟨s, reached, missed⟩ := booted_shows deposed
  obtain ⟨t, reached', missed'⟩ := booted_shows elected
  exact ⟨⟨s, reached, stale_of_misses (by decide) missed⟩,
    t, reached', stale_of_misses (by decide) missed'⟩

end Service
end WalKv
