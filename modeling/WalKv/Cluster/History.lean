import WalKv.Cluster.Acknowledgement
import WalKv.Cluster.Safety
import WalKv.Driver.Applying

/-! What nodes hand to their stores and tell their clients. The entries handed out make one
history that every store which gets its batches in order holds a part of, and a leader of the
newest term that has committed an entry of its own knows all that clients were told. -/
namespace WalKv
open RaftCore
open Consensus (Led Known Extends Invariant)

variable {m : Membership} {c c' : Cluster} {a a' : Spec} {n : Nat} {e : Effect} {action : Action}

/-- Node `n` has won the term. -/
def Won (trace : List Event) (n term : Nat) : Prop :=
  ∃ core, .elected core ∈ trace ∧ core.id = n ∧ core.hard.currentTerm = term

theorem Won.mono {trace : List Event} {term : Nat} (won : Won trace n term) (more : List Event) :
    Won (trace ++ more) n term := by
  obtain ⟨core, elected, id, now⟩ := won
  exact ⟨core, List.mem_append_left _ elected, id, now⟩

/-- A batch that was handed out from the given index on. -/
def Batched (trace : List Event) (n start : Nat) (batch : List LogEntry) : Prop :=
  ∀ j x, batch[j]? = some x → .applied n (start + j) x ∈ trace

/-- Where the entries that clients wait for and the batches for the store come from. -/
structure Originates (c : Cluster) (n : Nat) (e : Effect) : Prop where
  pending : ∀ x ∈ e.server.pending, x ∈ (c.server n).pending ∨
    (c.core n).role = .leader ∧ x.term = (c.core n).hard.currentTerm
  taken : ∀ batch ∈ e.server.taken, batch ∈ (c.server n).taken ∨
    ∃ start, Batched e.events n start batch
  acknowledged : ∀ {k x}, .acknowledged k x ∈ e.events →
    k = n ∧ x ∈ (c.server n).pending ∧ x.index ≤ (c.server n).commitTx

theorem Unseen.originates (unseen : Unseen (c.server n) e) : Originates c n e where
  pending _ waits := Or.inl (unseen.pending ▸ waits)
  taken _ held := Or.inl (unseen.taken ▸ held)
  acknowledged event := absurd event (unseen.silent _ _)

theorem take_originates : Originates c n (takeEffect n (c.server n)) where
  pending _ waits := Or.inl waits
  taken batch held := by
    simp only [takeEffect] at held ⊢
    split_ifs at held
    · exact Or.inl held
    · refine (List.mem_append.mp held).imp_right fun new => ?_
      rw [List.mem_singleton.mp new]
      exact ⟨_, fun j x found => appliedEvents_mem n _ found⟩
  acknowledged event := absurd event (appliedEvents_silent _ _ _ _ _)

theorem acknowledge_originates {x : LogEntry} (waits : x ∈ (c.server n).pending)
    (reached : x.index ≤ (c.server n).commitTx) :
    Originates c n { server := { c.server n with pending := (c.server n).pending.erase x }
                     events := [.acknowledged n x] } where
  pending _ kept := Or.inl (List.mem_of_mem_erase kept)
  taken _ held := Or.inl held
  acknowledged event := by
    cases List.mem_singleton.mp event
    exact ⟨rfl, waits, reached⟩

section Runs
variable [Bincode]

theorem propose_originates (rel : Refines m c a) (member : n ∈ m.members) (command : Command) :
    Originates c n (proposeEffect command (c.server n)) := by
  unfold proposeEffect
  split
  · rename_i entry core ran
    obtain ⟨leading, made, _⟩ := appendAsLeader_ok (rel.node n member).sound ran
    have stamped : (c.core n).role = .leader ∧ entry.term = (c.core n).hard.currentTerm :=
      ⟨leading, by rw [made]⟩
    refine ⟨fun x waits => ?_, fun _ held => Or.inl held, fun event => ?_⟩
    · rcases List.mem_cons.mp waits with rfl | old
      · exact Or.inr stamped
      · exact Or.inl old
    · exact absurd event (commitEvent_silent _ _ _ _)
  · exact Unseen.originates ⟨rfl, rfl, rfl, by simp⟩

theorem effect_originates (rel : Refines m c a) (member : action.node ∈ m.members)
    (acted : effect m c action = some e) : Originates c action.node e := by
  cases effect_acts acted with
  | timeout n clock => exact (timeout_unseen _ _).originates
  | requestVote clock => exact (requestVote_unseen _ _ _).originates
  | voteAnswer => exact (voteAnswer_unseen _ _ _).originates
  | propose n command => exact propose_originates rel member command
  | appendEntries clock =>
    unfold appendEntriesEffect
    split <;> exact Unseen.originates ⟨rfl, rfl, rfl, by simp⟩
  | appendAnswer => exact (appendAnswer_unseen _ _).originates
  | take n => exact take_originates
  | publish =>
    exact ⟨fun _ waits => Or.inl waits, fun _ held => Or.inl (List.mem_of_mem_erase held), nofun⟩
  | acknowledge waits reached => exact acknowledge_originates waits reached
  | deadlineExceeded =>
    exact ⟨fun _ waits => Or.inl (List.mem_of_mem_erase waits), fun _ held => Or.inl held, nofun⟩
  | build | compact => exact Unseen.originates ⟨rfl, rfl, rfl, by simp⟩
  | crash restarted | crashUncompacted _ _ restarted | interrupt _ restarted =>
    obtain ⟨core, _, rfl⟩ := restart_ok restarted
    exact ⟨nofun, nofun, nofun⟩

omit [Bincode] in
theorem compact_commit (snapshotMeta : SnapshotMeta) : Fallible.Keeps
    (fun core core' : Core => core'.commitIndex = core.commitIndex) (compact snapshotMeta) := by
  have trans {core core' core'' : Core} (first : core'.commitIndex = core.commitIndex)
      (second : core''.commitIndex = core'.commitIndex) : core''.commitIndex = core.commitIndex :=
    second.trans first
  refine .bind trans (.get fun _ => rfl) fun core => ?_
  unfold Fallible.when
  split_ifs
  · refine .bind trans (fun _ => rfl) fun _ => ?_
    exact .bind trans (fun _ => rfl) fun _ _ => rfl
  · exact fun _ => rfl

theorem effect_commit (rel : Refines m c a) (member : action.node ∈ m.members)
    (clean : CleanCrash action) (acted : effect m c action = some e)
    (running : ∀ n clock, action ≠ .crash n clock)
    (compacted : ∀ n clock index, action ≠ .crashUncompacted n clock index) :
    (c.core action.node).commitIndex ≤ e.server.core.commitIndex := by
  cases action with
  | compact n index =>
    cases effect_acts acted with
    | compact => exact (compact_commit _ _).ge
  | crashUncompacted n clock index => exact absurd rfl (compacted n clock index)
  | _ => exact (effect_progress rel member clean trivial acted running).commit

/-- Which leader a client was told by, and how far that leader's commit index then was. -/
structure Told (m : Membership) (c : Cluster) : Prop where
  pending : ∀ n ∈ m.members, ∀ x ∈ (c.server n).pending, Won c.trace n x.term
  acknowledged : ∀ {n x}, .acknowledged n x ∈ c.trace → n ∈ m.members ∧ Won c.trace n x.term ∧
    ((c.core n).role = .leader → (c.core n).hard.currentTerm = x.term →
      x.index ≤ (c.core n).commitIndex)

/-- A leader that stays leader keeps its commit index, and nobody wins a term twice. -/
theorem effect_keeps (rel : Refines m c a) (member : action.node ∈ m.members)
    (clean : CleanCrash action) (acted : effect m c action = some e)
    (won : Won c.trace action.node e.server.core.hard.currentTerm)
    (leads : e.server.core.role = .leader) :
    (c.core action.node).role = .leader ∧
      (c.core action.node).hard.currentTerm = e.server.core.hard.currentTerm ∧
      (c.core action.node).commitIndex ≤ e.server.core.commitIndex := by
  have rules := effect_rules rel.elections member acted
  rcases rules.leads leads with ⟨core, again⟩ | ⟨role, same⟩
  · obtain ⟨before, elected, id, now⟩ := won
    have candidate := (effect_contested acted).2 core again
    have past := rel.elections.past elected
    have raised := rules.grown.term
    rw [id] at past
    rcases past with newer | ⟨_, other⟩
    · omega
    · exact absurd candidate other
  · have fresh {n : Nat} {clock : Clock} {file : HardFile} {snapshot : SnapshotMeta}
        {log : FlatLog} (restarted : restart m clock n file snapshot log = some e) : False := by
      obtain ⟨core, restored, rfl⟩ := restart_ok restarted
      obtain ⟨records, entries, _, _, _, rfl⟩ := restore_ok restored
      cases leads
    refine ⟨role, same, effect_commit rel member clean acted ?_ ?_⟩
    · rintro n clock rfl
      cases effect_acts acted with
      | crash restarted => exact fresh restarted
    · rintro n clock index rfl
      cases effect_acts acted with
      | crashUncompacted _ _ restarted => exact fresh restarted

theorem Told.step (told : Told m c) (rel : Refines m c a) (waiting : Waiting m c a)
    (member : action.node ∈ m.members) (clean : CleanCrash action)
    (acted : effect m c action = some e) : Told m (c.apply action.node e) := by
  have origin := effect_originates rel member acted
  constructor
  · intro v voter x waits
    by_cases acting : v = action.node
    · subst acting
      rw [c.apply_server_self] at waits
      rcases origin.pending x waits with old | ⟨leads, now⟩
      · exact (told.pending _ voter x old).mono _
      · rw [now]
        exact Won.mono (rel.elections.leads _ voter leads) _
    · rw [c.apply_server_other e acting] at waits
      exact (told.pending v voter x waits).mono _
  · intro v x event
    rcases List.mem_append.mp event with old | new
    · obtain ⟨voter, won, reached⟩ := told.acknowledged old
      refine ⟨voter, won.mono _, ?_⟩
      by_cases acting : v = action.node
      · subst acting
        rw [c.apply_core_self]
        intro leads now
        rw [← now] at won
        obtain ⟨role, same, grown⟩ := effect_keeps rel member clean acted won leads
        exact (reached role (same.trans now)).trans grown
      · rwa [c.apply_core_other e acting]
    · obtain ⟨rfl, waits, reached⟩ := origin.acknowledged new
      have won := told.pending _ member x waits
      refine ⟨member, won.mono _, fun leads now => ?_⟩
      rw [c.apply_core_self] at leads now ⊢
      rw [← now] at won
      have grown := (effect_keeps rel member clean acted won leads).2.2
      exact ((reached.trans (waiting.published _ member)).trans (rel.node _ member).applied).trans grown

theorem Refines.termAt_le (rel : Refines m c a) {i j : Nat} (below : i ≤ j)
    (within : j ≤ (a.log n).length) :
    Consensus.termAt (a.log n) i ≤ Consensus.termAt (a.log n) j := by
  rcases i with _ | i
  · exact Nat.zero_le _
  · obtain ⟨j, rfl⟩ := Nat.exists_eq_add_of_le' (show 1 ≤ j by omega)
    simp only [Consensus.termAt_succ, List.getElem?_eq_getElem (show i < (a.log n).length by omega),
      List.getElem?_eq_getElem (show j < (a.log n).length by omega), Option.map_some,
      Option.getD_some]
    rcases Nat.lt_or_eq_of_le (show i ≤ j by omega) with less | rfl
    · exact List.pairwise_iff_getElem.mp (rel.sorted n) i j _ _ less
    · exact le_rfl

/-- A leader of the newest term that has committed an entry of that term knows of every
acknowledged write that it is committed. -/
theorem Told.reached (told : Told m c) (rel : Refines m c a) (waiting : Waiting m c a)
    (member : n ∈ m.members) (leads : (c.core n).role = .leader)
    (newest : ∀ core, .elected core ∈ c.trace →
      core.hard.currentTerm ≤ (c.core n).hard.currentTerm)
    (own : (c.core n).termAt (c.core n).commitIndex = some (c.core n).hard.currentTerm)
    {k : Nat} {x : LogEntry} (event : .acknowledged k x ∈ c.trace) :
    x.index ≤ (c.core n).commitIndex := by
  obtain ⟨_, ⟨core, elected, rfl, now⟩, reached⟩ := told.acknowledged event
  have stands := rel.node n member
  obtain ⟨leader, won, id, current⟩ := rel.elections.leads n member leads
  rcases Nat.lt_or_eq_of_le (newest core elected) with older | same
  · obtain ⟨t, j, commits, first, last, found⟩ := (waiting.acknowledged event).1
    obtain ⟨winner, elected', term⟩ := rel.wonBy (rel.invariant.committed commits).1
    have inside := Consensus.committed_in_leader rel.invariant commits (stands.leads leads).led
      (term ▸ newest winner elected')
    rw [← (stands.leads leads).log] at inside
    have held : (a.log n)[x.index - 1]? = some x := by
      refine Consensus.prefix_getElem? inside ?_
      rw [List.getElem?_take, if_pos (by omega), found]
    have stamp : Consensus.termAt (a.log n) x.index = x.term := by
      rw [show x.index = x.index - 1 + 1 by omega, Consensus.termAt_succ, held]
      rfl
    have within := (rel.known n).within rel.invariant
    rw [stands.commit] at within
    rw [stands.sound.holds.termAt (stands.compacted.trans stands.applied) within] at own
    by_contra beyond
    have reach := (List.getElem?_eq_some_iff.mp held).1
    have order := rel.termAt_le (n := n) (Nat.le_of_not_le beyond) (by omega)
    rw [stamp, Option.some.inj own] at order
    omega
  · have acting : core.id = n := (rel.elections.unique elected won (same.trans current.symm)).trans id
    subst acting
    exact reached leads (same.symm.trans now)

/-- The entries of the list were handed to stores for their positions. -/
def Handed (trace : List Event) (l : List LogEntry) : Prop :=
  ∀ i x, l[i]? = some x → ∃ k, .applied k (i + 1) x ∈ trace

omit [Bincode] in
theorem Handed.mono {trace : List Event} {l : List LogEntry} (handed : Handed trace l)
    (more : List Event) : Handed (trace ++ more) l := by
  intro i x found
  obtain ⟨k, event⟩ := handed i x found
  exact ⟨k, List.mem_append_left _ event⟩

omit [Bincode] in
theorem Handed.shorter {trace : List Event} {l l' : List LogEntry} (handed : Handed trace l')
    (shorter : l <+: l') : Handed trace l := by
  intro i x found
  exact handed i x (Consensus.prefix_getElem? shorter found)

theorem Handed.indexed {l : List LogEntry} (handed : Handed c.trace l) (rel : Refines m c a) :
    Indexed l := by
  intro i x found
  obtain ⟨k, event⟩ := handed i x found
  exact rel.applied_index event

theorem Handed.join {l l' : List LogEntry} (left : Handed c.trace l) (right : Handed c.trace l')
    (rel : Refines m c a) : ∃ whole, Handed c.trace whole ∧ l <+: whole ∧ l' <+: whole := by
  have agree {l l' : List LogEntry} (left : Handed c.trace l) (right : Handed c.trace l')
      (longer : l.length ≤ l'.length) : l <+: l' := by
    refine List.prefix_iff_getElem?.mpr fun i bound => ?_
    obtain ⟨k, event⟩ := left i l[i] (List.getElem?_eq_getElem bound)
    obtain ⟨j, event'⟩ := right i l'[i] (List.getElem?_eq_getElem (by omega))
    rw [List.getElem?_eq_getElem (by omega), rel.applied_agree event event']
  rcases Nat.le_total l.length l'.length with longer | longer
  · exact ⟨l', right, agree left right longer, List.prefix_rfl⟩
  · exact ⟨l, left, List.prefix_rfl, agree right left longer⟩

theorem Handed.has {l : List LogEntry} (handed : Handed c.trace l) (rel : Refines m c a)
    {x : LogEntry} (committed : Committed a x) (reach : x.index ≤ l.length) :
    l[x.index - 1]? = some x := by
  have first := committed.positive
  obtain ⟨k, event⟩ := handed (x.index - 1) l[x.index - 1] (List.getElem?_eq_getElem (by omega))
  obtain ⟨t, j, commits, _, last, found⟩ := rel.applied event
  rw [show x.index - 1 + 1 = x.index by omega] at last found
  rw [rel.committed_unique committed commits last] at found
  rw [List.getElem?_eq_getElem (by omega), ← Option.some.inj found]

theorem apply_in_order {h batch : List LogEntry} {store : Store} {start : Nat}
    (rel : Refines m c a) (handed : Handed c.trace h) (applied : Driver.Applied h store)
    (batched : Batched c.trace n start batch)
    (ordered : ∀ x ∈ batch.head?, x.index = store.lastApplied + 1) :
    ∃ h', Handed c.trace h' ∧ Driver.Applied h' (Driver.applyBatch batch store) := by
  rcases batch with _ | ⟨x, rest⟩
  · exact ⟨h, handed, applied⟩
  · have first := ordered x rfl
    rw [rel.applied_index (batched 0 x rfl), Nat.add_zero] at first
    have length : (h.take store.lastApplied).length = store.lastApplied :=
      List.length_take_of_le applied.table.within
    have extended : Handed c.trace (h.take store.lastApplied ++ x :: rest) := by
      intro i y found
      rcases Nat.lt_or_ge i store.lastApplied with before | after
      · rw [List.getElem?_append_left (by omega)] at found
        exact handed.shorter (List.take_prefix _ _) i y found
      · rw [List.getElem?_append_right (by omega), length] at found
        have event := batched _ y found
        rw [first, show store.lastApplied + 1 + (i - store.lastApplied) = i + 1 by omega] at event
        exact ⟨n, event⟩
    obtain ⟨whole, handed', longer, inside⟩ := handed.join extended rel
    have slice : Driver.Slice whole store.lastApplied (x :: rest) := by
      intro j y found
      refine Consensus.prefix_getElem? inside ?_
      rw [List.getElem?_append_right (by omega), length, Nat.add_sub_cancel_left, found]
    exact ⟨whole, handed', ((applied.mono longer).applyBatch (handed'.indexed rel) slice).1⟩

/-- What holds of the cluster while clients read. -/
structure Sane (m : Membership) (c : Cluster) (a : Spec) : Prop where
  rel : Refines m c a
  waiting : Waiting m c a
  told : Told m c

theorem Sane.step [LawfulBincode] (sane : Sane m c a) (allowed : Undisturbed c action)
    (stepped : WalKv.step m c action = some c') : ∃ a', Sane m c' a' := by
  obtain ⟨a', rel, waiting⟩ := undisturbed_step sane.rel sane.waiting allowed stepped
  obtain ⟨member, e, acted, rfl⟩ := step_ok stepped
  exact ⟨a', rel, waiting, sane.told.step sane.rel sane.waiting member allowed.1.2.2 acted⟩

theorem sane_initial (start : Initial m c) : Sane m c Consensus.initial where
  rel := refines_initial start
  waiting := waiting_initial start
  told := by
    refine ⟨fun n member x waits => ?_, fun event => by simp [start.trace] at event⟩
    obtain ⟨clock, core, _, server⟩ := start.server n member
    simp [server, Server.fresh] at waits

end Runs
end WalKv
