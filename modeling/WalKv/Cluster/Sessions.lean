import WalKv.Cluster.Reads

/-! What reads promise although they may be stale. Every answer is the state after some beginning of
the one history that all replicas follow. A client that keeps to one node sees its own writes and
never goes back in time, as long as the node does not restart. -/
namespace WalKv
open RaftCore

namespace Service
variable {m : Membership} {s s' t : Service} {n : Nat} {action : Action}

/-- The action starts node `n` again. -/
def Action.restarts (n : Nat) : Action → Bool
  | .act call => call.restarts n
  | _ => false

/-- What an action does with stores and requests. Only a restart takes a store back, and a request
is answered with what the store of its node holds. -/
structure Steps (m : Membership) (s : Service) (action : Action) (s' : Service) : Prop where
  stores : ∀ n, action.restarts n = false → (s.store n).lastApplied ≤ (s'.store n).lastApplied
  node : ∀ get ∈ s'.gets, get.node ∈ m.members ∨ ∃ old ∈ s.gets, old.node = get.node
  answered : ∀ get ∈ s'.gets, ∀ response, get.state = .answered response → get ∈ s.gets ∨
    ∃ old ∈ s.gets, old.node = get.node ∧ response.result = (s.store get.node).get get.key

theorem Steps.quiet
    (stores : ∀ n, action.restarts n = false → (s.store n).lastApplied ≤ (s'.store n).lastApplied)
    (gets : ∀ get ∈ s'.gets, get ∈ s.gets) : Steps m s action s' where
  stores
  node get inside := .inr ⟨get, gets get inside, rfl⟩
  answered get inside _ _ := .inl (gets get inside)

section Runs
variable [Bincode]

theorem read_ok {i : Nat} (stepped : step m s (.read i) = some s') : ∃ get leaderHint,
    s.gets[i]? = some get ∧ get.state = .passed leaderHint ∧
      s' = s.move i get (.answered (.ofValue leaderHint ((s.store get.node).get get.key))) := by
  cases step_does stepped with
  | read found serving => exact ⟨_, _, found, serving, rfl⟩

theorem step_steps (stepped : step m s action = some s') : Steps m s action s' := by
  have moved {i : Nat} {get : Get} {state : GetState} (found : s.gets[i]? = some get)
      (answers : ∀ response, state = .answered response →
        response.result = (s.store get.node).get get.key) :
      Steps m s action (s.move i get state) := by
    have listed := List.mem_of_getElem? found
    refine ⟨fun _ _ => le_rfl, ?_, ?_⟩
    · intro other inside
      rcases List.mem_or_eq_of_mem_set inside with old | rfl
      · exact .inr ⟨other, old, rfl⟩
      · exact .inr ⟨get, listed, rfl⟩
    · intro other inside response answered
      rcases List.mem_or_eq_of_mem_set inside with old | rfl
      · exact .inl old
      · exact .inr ⟨get, listed, rfl, answers response answered⟩
  cases step_does stepped with
  | act | compact | publish => exact .quiet (fun _ _ => le_rfl) fun _ inside => inside
  | restart _ restarts =>
    refine .quiet ?_ fun get kept => (List.mem_filter.mp kept).1
    intro n running
    have other := of_decide_eq_false ((restarts n).symm.trans running)
    simp [reopen, Ne.symm other]
  | @apply n batch =>
    refine .quiet ?_ fun _ inside => inside
    intro v _
    by_cases here : v = n
    · subst here
      simpa using (Driver.applyBatch_covers batch (s.store v)).1
    · simp [here]
  | @snapshot n =>
    refine .quiet ?_ fun _ inside => inside
    intro v _
    by_cases here : v = n
    · subst here
      simp
    · simp [here]
  | get member key =>
    refine ⟨fun _ _ => le_rfl, ?_, ?_⟩
    · intro get inside
      rcases List.mem_append.mp inside with old | new
      · exact .inr ⟨get, old, rfl⟩
      · cases List.mem_singleton.mp new
        exact .inl member
    · intro get inside response answered
      rcases List.mem_append.mp inside with old | new
      · exact .inl old
      · cases List.mem_singleton.mp new
        cases answered
  | passed found | redirected found => exact moved found (by simp)
  | read found =>
    refine moved found ?_
    rintro _ ⟨⟩
    exact GetResponse.result_ofValue _ _

/-- Requests are to members, and every answer is the state after part of the history. -/
structure Answers (m : Membership) (s : Service) : Prop extends Replicates m s where
  node : ∀ get ∈ s.gets, get.node ∈ m.members
  answered : ∀ get ∈ s.gets, ∀ response, get.state = .answered response →
    ∃ l, Handed s.trace l ∧ response.result = (replay l).lookup get.key

theorem Replicates.table (rep : Replicates m s) (member : n ∈ m.members) :
    ∃ l, Handed s.trace l ∧ l.length = (s.store n).lastApplied ∧
      (s.store n).memtable.map = replay l := by
  obtain ⟨h, handed, applied⟩ := rep.stores n member
  exact ⟨_, handed.shorter (List.take_prefix _ _), List.length_take_of_le applied.table.within,
    applied.table.map⟩

theorem answers_initial (start : Initial m s) : Answers m s where
  toReplicates := replicates_initial start
  node get inside := by simp [start.gets] at inside
  answered get inside := by simp [start.gets] at inside

theorem Answers.step [LawfulBincode] (answers : Answers m s) (ordered : InOrder s action)
    (stepped : Service.step m s action = some s') : Answers m s' := by
  have steps := step_steps stepped
  obtain ⟨more, grown⟩ := step_longer stepped
  refine ⟨answers.toReplicates.step ordered stepped, ?_, ?_⟩
  · intro get inside
    rcases steps.node get inside with member | ⟨old, listed, same⟩
    · exact member
    · exact same ▸ answers.node old listed
  · intro get inside response answered
    rw [grown]
    rcases steps.answered get inside response answered with old | ⟨old, listed, same, value⟩
    · obtain ⟨l, handed, value⟩ := answers.answered get old response answered
      exact ⟨l, handed.mono more, value⟩
    · obtain ⟨l, handed, _, table⟩ := answers.toReplicates.table (same ▸ answers.node old listed)
      refine ⟨l, handed.mono more, ?_⟩
      rw [value, Store.get, MemTable.get, table]

theorem reachable_answers [LawfulBincode] (run : Reachable m InOrder s) : Answers m s := by
  obtain ⟨start, initial, run⟩ := run
  exact run.invariant (answers_initial initial) fun answers ordered stepped =>
    answers.step ordered stepped

theorem Answers.common (answers : Answers m s) {base : List LogEntry} (handed : Handed s.trace base)
    (gets : List Get) (listed : ∀ get ∈ gets, get ∈ s.gets) :
    ∃ l, Handed s.trace l ∧ base <+: l ∧ ∀ get ∈ gets, ∀ response, get.state = .answered response →
      ∃ k ≤ l.length, response.result = (replay (l.take k)).lookup get.key := by
  obtain ⟨a, rel⟩ := answers.refines
  induction gets with
  | nil => exact ⟨base, handed, List.prefix_rfl, by simp⟩
  | cons get rest ih =>
    obtain ⟨l, handed, longer, others⟩ :=
      ih fun other inside => listed other (List.mem_cons_of_mem _ inside)
    have extend {whole : List LogEntry} (part : l <+: whole) : ∀ other ∈ rest, ∀ response,
        other.state = .answered response →
          ∃ k ≤ whole.length, response.result = (replay (whole.take k)).lookup other.key := by
      intro other inside response answered
      obtain ⟨k, within, value⟩ := others other inside response answered
      refine ⟨k, within.trans part.length_le, ?_⟩
      rw [Consensus.prefix_take part within]
      exact value
    by_cases answered : ∃ response, get.state = .answered response
    · obtain ⟨response, answered⟩ := answered
      obtain ⟨seen, shown, value⟩ :=
        answers.answered get (listed get List.mem_cons_self) response answered
      obtain ⟨whole, joined, left, right⟩ := handed.join shown rel
      refine ⟨whole, joined, longer.trans left, ?_⟩
      intro other inside answer state
      rcases List.mem_cons.mp inside with rfl | later
      · cases answered.symm.trans state
        refine ⟨seen.length, right.length_le, ?_⟩
        rw [Consensus.prefix_take right le_rfl, List.take_length]
        exact value
      · exact extend left other later answer state
    · refine ⟨l, handed, longer, ?_⟩
      intro other inside answer state
      rcases List.mem_cons.mp inside with rfl | later
      · exact absurd ⟨answer, state⟩ answered
      · exact extend List.prefix_rfl other later answer state

/-- No answer is invented: there is one history of which every replica holds a beginning, and every
answer that was ever given to a client, stale or not, is the value after a beginning of it. -/
theorem answers_from_one_history [LawfulBincode] (run : Reachable m InOrder s) :
    ∃ l, Handed s.trace l ∧
      (∀ n ∈ m.members, (s.store n).lastApplied ≤ l.length ∧
        (s.store n).memtable.map = replay (l.take (s.store n).lastApplied)) ∧
      ∀ get ∈ s.gets, ∀ response, get.state = .answered response →
        ∃ k ≤ l.length, response.result = (replay (l.take k)).lookup get.key := by
  have answers := reachable_answers run
  obtain ⟨base, handed, applied⟩ :=
    answers.toReplicates.common m.members fun _ member => member
  obtain ⟨l, whole, longer, shown⟩ := answers.common handed s.gets fun _ inside => inside
  refine ⟨l, whole, ?_, shown⟩
  intro n member
  have holds := (applied n member).mono longer
  exact ⟨holds.table.within, holds.table.map⟩

/-- A node that has not restarted since its store was at `base`, and the requests it has answered
since then. -/
structure Session (m : Membership) (n base : Nat) (past : List Get) (t : Service) : Prop
    extends Answers m t where
  floor : base ≤ (t.store n).lastApplied
  fresh : ∀ get ∈ t.gets, get ∉ past → get.node = n → ∀ response, get.state = .answered response →
    ∃ l, Handed t.trace l ∧ base ≤ l.length ∧ response.result = (replay l).lookup get.key

theorem Session.step [LawfulBincode] {base : Nat} {past : List Get} (session : Session m n base past t)
    (ordered : InOrder t action) (running : action.restarts n = false)
    (stepped : Service.step m t action = some s') : Session m n base past s' := by
  have steps := step_steps stepped
  obtain ⟨more, grown⟩ := step_longer stepped
  refine ⟨session.toAnswers.step ordered stepped, session.floor.trans (steps.stores n running), ?_⟩
  intro get inside new here response answered
  rw [grown]
  rcases steps.answered get inside response answered with old | ⟨old, listed, same, value⟩
  · obtain ⟨l, handed, reach, value⟩ := session.fresh get old new here response answered
    exact ⟨l, handed.mono more, reach, value⟩
  · obtain ⟨l, handed, length, table⟩ :=
      session.toReplicates.table (same ▸ session.toAnswers.node old listed)
    refine ⟨l, handed.mono more, ?_, ?_⟩
    · rw [length, here]
      exact session.floor
    · rw [value, Store.get, MemTable.get, table]

/-- The run goes on without a restart of node `n`. -/
def Staying (guard : Service → Action → Prop) (n : Nat) (s : Service) (action : Action) : Prop :=
  guard s action ∧ action.restarts n = false

instance {guard : Service → Action → Prop} [∀ s action, Decidable (guard s action)] (n : Nat)
    (s : Service) (action : Action) : Decidable (Staying guard n s action) :=
  inferInstanceAs (Decidable (_ ∧ _))

theorem Answers.session [LawfulBincode] (answers : Answers m s)
    (later : Transition.Reaches (Service.step m) (Staying InOrder n) s t) :
    Session m n (s.store n).lastApplied s.gets t := by
  have start : Session m n (s.store n).lastApplied s.gets s :=
    ⟨answers, le_rfl, fun get inside new => absurd inside new⟩
  exact later.invariant start fun session allowed stepped => session.step allowed.1 allowed.2 stepped

theorem Answers.continues (answers : Answers m t) {l l' : List LogEntry} (handed : Handed t.trace l)
    (handed' : Handed t.trace l') (shorter : l.length ≤ l'.length) : l'.take l.length = l := by
  obtain ⟨a, rel⟩ := answers.refines
  obtain ⟨whole, _, left, right⟩ := handed.join handed' rel
  rw [← Consensus.prefix_take right shorter, Consensus.prefix_take left le_rfl, List.take_length]

theorem reaches_longer {guard : Service → Action → Prop}
    (run : Transition.Reaches (Service.step m) guard s t) : ∃ more, t.trace = s.trace ++ more := by
  refine run.invariant (P := fun t => ∃ more, t.trace = s.trace ++ more) ⟨[], by simp⟩ ?_
  rintro before after action ⟨more, grown⟩ _ stepped
  obtain ⟨next, grows⟩ := step_longer stepped
  exact ⟨more ++ next, by rw [grows, grown, List.append_assoc]⟩

/-- Monotonic reads: what a node answers after it has answered a request, without a restart in
between, is the value in a later state than the earlier answer was. -/
theorem reads_never_go_back [LawfulBincode] {i : Nat} {first second : Get}
    {response response' : GetResponse} (run : Reachable m InOrder s)
    (read : step m s (.read i) = some s') (found : s'.gets[i]? = some first)
    (answered : first.state = .answered response)
    (later : Transition.Reaches (step m) (Staying InOrder first.node) s' t)
    (inside : second ∈ t.gets) (new : second ∉ s'.gets) (same : second.node = first.node)
    (answered' : second.state = .answered response') :
    ∃ l, ∃ k ≤ l.length, Handed t.trace l ∧
      response.result = (replay (l.take k)).lookup first.key ∧
      response'.result = (replay l).lookup second.key := by
  have answers := reachable_answers run
  obtain ⟨get, leaderHint, listed, _, rfl⟩ := read_ok read
  have ordered : InOrder s (.read i) := trivial
  have answers' := answers.step ordered read
  have session := answers'.session later
  obtain ⟨l, handed, reach, value'⟩ := session.fresh second inside new same response' answered'
  have moved : first = ⟨get.node, get.key, get.sent,
      GetState.answered (.ofValue leaderHint ((s.store get.node).get get.key))⟩ := by
    have bound := (List.getElem?_eq_some_iff.mp listed).1
    simpa [move, List.getElem?_set, bound] using found.symm
  subst moved
  cases answered
  obtain ⟨part, shown, length, table⟩ := answers.toReplicates.table
    (answers.node get (List.mem_of_getElem? listed))
  obtain ⟨more, grown⟩ := reaches_longer later
  have shown' : Handed t.trace part := grown ▸ shown.mono more
  refine ⟨l, part.length, length.trans_le reach, handed, ?_, value'⟩
  rw [session.toAnswers.continues shown' handed (length.trans_le reach),
    GetResponse.result_ofValue, Store.get, MemTable.get, table]

/-- What a node has published, and what it is about to publish, is in its store. -/
def Published (m : Membership) (s : Service) : Prop :=
  ∀ n ∈ m.members, (s.cluster.server n).commitTx ≤ (s.store n).lastApplied ∧
    ∀ batch ∈ s.stored n, ∀ x ∈ batch, x.index ≤ (s.store n).lastApplied

theorem published_initial (start : Initial m s) : Published m s := by
  intro n member
  obtain ⟨clock, core, restored, server⟩ := start.cluster.server n member
  obtain ⟨_, _, _, _, _, rfl⟩ := restore_ok restored
  rw [start.stored n member, server]
  exact ⟨Nat.zero_le _, by simp⟩

/-- Only publishing and a restart move the published index. -/
theorem effect_commitTx {call : WalKv.Action} {c : Cluster} {e : Effect}
    (acted : effect m c call = some e) (running : ∀ n, call.restarts n = false)
    (unpublished : ∀ n batch, call ≠ .publish n batch) :
    e.server.commitTx = (c.server call.node).commitTx := by
  have restarted {n : Nat} (restarts : call.restarts n = true) : False := by
    rw [running n] at restarts
    cases restarts
  cases effect_acts acted with
  | timeout n clock => exact (timeout_unseen _ _).commitTx
  | requestVote clock => exact (requestVote_unseen _ _ _).commitTx
  | voteAnswer => exact (voteAnswer_unseen _ _ _).commitTx
  | propose n command =>
    unfold proposeEffect
    split <;> rfl
  | appendEntries clock =>
    unfold appendEntriesEffect
    split <;> rfl
  | appendAnswer => exact (appendAnswer_unseen _ _).commitTx
  | take | build | compact | acknowledge | deadlineExceeded => rfl
  | publish => exact absurd rfl (unpublished _ _)
  | crash | crashUncompacted | interrupt => exact (restarted (decide_eq_true rfl)).elim

namespace Published

omit [Bincode] in
theorem keep (published : Published m s) {c : Cluster}
    (commitTx : ∀ v, (c.server v).commitTx = (s.cluster.server v).commitTx)
    {store : Nat → Store} (stores : ∀ v, (s.store v).lastApplied ≤ (store v).lastApplied)
    (gets : List Get) : Published m ⟨c, store, s.stored, gets⟩ := by
  intro v voter
  obtain ⟨told, storing⟩ := published v voter
  refine ⟨?_, fun batch held x among => (storing batch held x among).trans (stores v)⟩
  rw [commitTx v]
  exact told.trans (stores v)

theorem step (published : Published m s) (stepped : Service.step m s action = some s') :
    Published m s' := by
  have same {call : WalKv.Action} {c : Cluster} (acted : WalKv.step m s.cluster call = some c)
      (running : ∀ n, call.restarts n = false) (unpublished : ∀ n batch, call ≠ .publish n batch)
      (v : Nat) : (c.server v).commitTx = (s.cluster.server v).commitTx := by
    obtain ⟨_, e, acts, rfl⟩ := step_ok acted
    by_cases here : v = call.node
    · subst here
      rw [Cluster.apply_server_self]
      exact effect_commitTx acts running unpublished
    · rw [Cluster.apply_server_other _ _ here]
  cases step_does stepped with
  | act acted running unpublished =>
    exact published.keep (same acted running unpublished) (fun _ => le_rfl) _
  | @restart call c acted _ loaded =>
    obtain ⟨_, e, _, rfl⟩ := step_ok acted
    intro v voter
    by_cases here : v = call.node
    · subst here
      refine ⟨?_, by simp [reopen]⟩
      simp only [reopen, Function.update_self]
      exact loaded.le.trans (Store.opened_lastApplied _ _).ge
    · simp only [Cluster.apply_server_other _ _ here, reopen, Function.update_of_ne here]
      exact published v voter
  | @apply n batch =>
    intro v voter
    obtain ⟨told, storing⟩ := published v voter
    by_cases here : v = n
    · subst here
      obtain ⟨grows, covers⟩ := Driver.applyBatch_covers batch (s.store v)
      simp only [Function.update_self]
      refine ⟨told.trans grows, ?_⟩
      intro other held x among
      rcases List.mem_cons.mp held with rfl | old
      · exact covers x among
      · exact (storing other old x among).trans grows
    · simp only [Function.update_of_ne here]
      exact ⟨told, storing⟩
  | @snapshot n =>
    refine published.keep (fun _ => rfl) ?_ _
    intro v
    by_cases here : v = n
    · subst here
      simp
    · simp [here]
  | compact acted =>
    exact published.keep (same acted (fun _ => rfl) (by simp)) (fun _ => le_rfl) _
  | @publish n batch c held acted =>
    obtain ⟨_, e, acts, rfl⟩ := step_ok acted
    cases effect_acts acts with
    | publish ends =>
      intro v voter
      obtain ⟨told, storing⟩ := published v voter
      by_cases here : v = n
      · subst here
        simp only [Cluster.apply, WalKv.Action.node, Function.update_self]
        exact ⟨storing batch held _ (List.mem_of_getLast? ends),
          fun other left => storing other (List.mem_of_mem_erase left)⟩
      · simp only [Cluster.apply, WalKv.Action.node, Function.update_of_ne here]
        exact ⟨told, storing⟩
  | get | passed | redirected | read => exact published.keep (fun _ => rfl) (fun _ => le_rfl) _

end Published

/-- Read your writes: once a node has acknowledged a write, everything that it answers until it
restarts is the value in a state that includes the write. -/
theorem reads_own_writes [LawfulBincode] {x : LogEntry} {get : Get} {response : GetResponse}
    (run : Reachable m Tidy s) (acknowledged : step m s (.act (.acknowledge n x)) = some s')
    (later : Transition.Reaches (step m) (Staying Tidy n) s' t) (inside : get ∈ t.gets)
    (new : get ∉ s'.gets) (here : get.node = n) (answered : get.state = .answered response) :
    ∃ l, Handed t.trace l ∧ l[x.index - 1]? = some x ∧
      response.result = (replay l).lookup get.key := by
  obtain ⟨start, initial, run⟩ := run
  have tidy : Tidy s (.act (.acknowledge n x)) := ⟨⟨trivial, trivial, trivial⟩, trivial⟩
  obtain ⟨published, answers, sane⟩ : Published m s ∧ Answers m s ∧ ∃ a, Sane m s.cluster a :=
    run.invariant (P := fun s => Published m s ∧ Answers m s ∧ ∃ a, Sane m s.cluster a)
      ⟨published_initial initial, answers_initial initial, _, sane_initial initial.cluster⟩
      fun ⟨published, answers, sane⟩ tidy stepped => ⟨published.step stepped,
        answers.step tidy.inOrder stepped, sane_step sane tidy stepped⟩
  have answers' := answers.step tidy.inOrder acknowledged
  have sane' := sane_step sane tidy acknowledged
  obtain ⟨c, acted, rfl⟩ := perform_ok (show s.perform m (.acknowledge n x) = some s' from acknowledged)
  obtain ⟨member, e, acts, rfl⟩ := step_ok acted
  have member : n ∈ m.members := member
  cases effect_acts acts with
  | acknowledge waits reached =>
    have applied : x.index ≤ (s.store n).lastApplied := reached.trans (published n member).1
    have staying := later.weaken (P := fun t => ∃ a, Sane m t.cluster a) sane'
      (fun sane allowed stepped => sane_step sane allowed.1 stepped)
      fun {_ _} _ (allowed : Staying Tidy n _ _) =>
        (⟨allowed.1.inOrder, allowed.2⟩ : Staying InOrder n _ _)
    obtain ⟨later', a, sane⟩ := staying
    obtain ⟨l, handed, reach, value⟩ :=
      (answers'.session later').fresh get inside new here response answered
    obtain ⟨more, grown⟩ := reaches_longer later'
    have event : .acknowledged n x ∈ t.trace := by
      rw [grown]
      exact List.mem_append_left _ (List.mem_append_right _ (by simp))
    refine ⟨l, handed, handed.has sane.rel (sane.waiting.acknowledged event).1 ?_, value⟩
    exact applied.trans reach

end Runs

/-- The deposed leader's answer misses the second write, but is a state of the history. -/
theorem answers_from_one_history_stale : ∃ s get, Reachable trio InOrder s ∧ get ∈ s.gets ∧
    get.state = .answered ⟨true, [1], 1⟩ ∧ (s.store 2).get [1] = some [2] ∧
    ∃ l : List LogEntry, ∃ k ≤ l.length, (replay (l.take k)).lookup get.key = some [1] := by
  have ran : (Transition.execute (step trio) InOrder booted
      (written ++ succeeded ++ rewritten ++ reading 1)).any (fun s =>
        decide ((s.store 2).get [1] = some [2]) &&
          s.gets.any fun get => decide (get.state = .answered ⟨true, [1], 1⟩)) = true := by
    decide +kernel
  obtain ⟨s, reached, shown⟩ := booted_shows ran
  obtain ⟨later, shown⟩ := Bool.and_eq_true_iff.mp shown
  obtain ⟨get, inside, answered⟩ := List.any_eq_true.mp shown
  have answered := of_decide_eq_true answered
  obtain ⟨l, _, _, answers⟩ := answers_from_one_history reached
  obtain ⟨k, within, value⟩ := answers get inside _ answered
  exact ⟨s, get, reached, inside, answered, of_decide_eq_true later, l, k, within, value.symm⟩

/-- Node 1 commits a third value for the key. -/
def overwritten : List Action :=
  [.act (.propose 1 (.put [1] [3])), .act (.build 1 2),
    .act (.appendEntries ⟨1, 2, ⟨1, 1, 2, 1, [⟨1, 3, .put [1] [3]⟩], 2⟩⟩ ⟨0, 0⟩),
    .act (.appendAnswer ⟨2, 1, 1, 3, ⟨1, true, 0⟩⟩), .act (.take 1),
    .apply 1 [⟨1, 3, .put [1] [3]⟩]]

/-- The same request before and after that. -/
def earlier : Get := ⟨1, [1], 7, .answered ⟨true, [1], 1⟩⟩

def later : Get := ⟨1, [1], 9, .answered ⟨true, [3], 1⟩⟩

theorem reads_never_go_back_overwritten : ∃ t : Service, t.gets = [earlier, later] ∧
    ∃ l : List LogEntry, ∃ k ≤ l.length, Handed t.trace l ∧
      (replay (l.take k)).lookup [1] = some [1] ∧ (replay l).lookup [1] = some [3] := by
  have ran : (Transition.execute (step trio) InOrder booted (written ++ [.get 1 [1], .check 0])).any
      (fun s => (step trio s (.read 0)).any fun s' => decide (s'.gets = [earlier]) &&
        (Transition.execute (step trio) (Staying InOrder 1) s'
          (overwritten ++ [.get 1 [1], .check 1, .read 1])).any fun t =>
            decide (t.gets = [earlier, later])) = true := by
    decide +kernel
  obtain ⟨s, reached, shown⟩ := booted_shows ran
  obtain ⟨s', read, shown⟩ := Option.any_eq_true _ _ |>.mp shown
  obtain ⟨before, shown⟩ := Bool.and_eq_true_iff.mp shown
  obtain ⟨t, run, after⟩ := Transition.execute_shows shown
  have before := of_decide_eq_true before
  have after := of_decide_eq_true after
  have found : s'.gets[0]? = some earlier := by rw [before]; rfl
  have inside : later ∈ t.gets := by rw [after]; simp
  have new : later ∉ s'.gets := by rw [before]; decide
  obtain ⟨l, k, within, handed, old, value⟩ :=
    reads_never_go_back reached read found rfl run inside new rfl rfl
  exact ⟨t, after, l, k, within, handed, old.symm, value.symm⟩

theorem reads_own_writes_replicated : ∃ t : Service, t.gets = [earlier] ∧
    ∃ l : List LogEntry, Handed t.trace l ∧ l[1]? = some ⟨1, 2, .put [1] [1]⟩ ∧
      (replay l).lookup [1] = some [1] := by
  have ran : (Transition.execute (step trio) Tidy booted written.dropLast).any
      (fun s => (step trio s (.act (.acknowledge 1 ⟨1, 2, .put [1] [1]⟩))).any fun s' =>
        decide (s'.gets = []) && (Transition.execute (step trio) (Staying Tidy 1) s' (reading 1)).any
          fun t => decide (t.gets = [earlier])) = true := by
    decide +kernel
  obtain ⟨s, reached, shown⟩ := booted_shows ran
  obtain ⟨s', acknowledged, shown⟩ := Option.any_eq_true _ _ |>.mp shown
  obtain ⟨before, shown⟩ := Bool.and_eq_true_iff.mp shown
  obtain ⟨t, run, after⟩ := Transition.execute_shows shown
  have before := of_decide_eq_true before
  have after := of_decide_eq_true after
  have inside : earlier ∈ t.gets := by rw [after]; simp
  have new : earlier ∉ s'.gets := by rw [before]; simp
  obtain ⟨l, handed, found, value⟩ := reads_own_writes reached acknowledged run inside new rfl rfl
  exact ⟨t, after, l, handed, found, value.symm⟩

end Service
end WalKv
