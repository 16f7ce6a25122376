import WalKv.Cluster.Recovery

/-! A quorum can always go on by itself. Once it has elected one of its nodes, that node can commit
what its log holds and any command it is given, the others learn of it, and the client is told. The
rounds of the cluster's leader are those of a group whose convergence is known. -/
namespace WalKv
open RaftCore Transition

section Runs
variable [Bincode] {m : Membership} {c : Cluster} {Q : Finset Nat} {n : Nat}

theorem leader_takes {a : Spec} (rel : Refines m c a) (flat : Uncompacted m c)
    (member : n ∈ m.members) (inside : n ∈ Q) (leads : (c.core n).role = .leader)
    {command : Command} {entry : LogEntry}
    (made : entry = ⟨(c.core n).hard.currentTerm, (c.core n).lastLogIndex + 1, command⟩)
    (encodes : Encodable entry) :
    ∃ c', Onward m Q c c' ∧ entry ∈ (c'.server n).pending ∧ (c'.core n).role = .leader ∧
      (c'.core n).hard = (c.core n).hard ∧ (c'.core n).lastApplied = (c.core n).lastApplied ∧
      (c'.core n).lastLogIndex = entry.index ∧ (c'.core n).entryAt entry.index = some entry ∧
      (c'.core n).termAt entry.index = some entry.term ∧ ∀ q, q ≠ n → c'.core q = c.core q := by
  have sound := (rel.node n member).sound
  have last := sound.holds.lastLogIndex
  rw [last] at made
  subst made
  obtain ⟨core', appended, role, hard, applied, snapshot, longer⟩ :=
    appendAsLeader_encodable sound leads encodes
  have acted : effect m c (.propose n command) = some (proposeEffect command (c.server n)) := rfl
  simp only [proposeEffect, show (c.server n).core = c.core n from rfl, appended] at acted
  have onward : Onward m Q c (c.apply n _) :=
    onward_of_effect (.propose n command) rfl member inside acted
  have above : core'.snapshot.lastIncludedIndex < (a.log n).length + 1 := by
    rw [snapshot, flat.node n member]
    exact Nat.succ_pos _
  have found : core'.entryAt ((a.log n).length + 1) =
      some ⟨(c.core n).hard.currentTerm, (a.log n).length + 1, command⟩ := by
    rw [longer.holds.entryAt above]
    exact List.getElem?_concat_length
  refine ⟨_, onward, ?_, ?_, ?_, ?_, ?_, ?_, ?_, ?_⟩
  · simp [Cluster.apply]
  · rw [c.apply_core_self]
    exact role
  · rw [c.apply_core_self]
    exact hard
  · rw [c.apply_core_self]
    exact applied
  · rw [c.apply_core_self]
    simpa using longer.holds.lastLogIndex
  · rw [c.apply_core_self]
    exact found
  · rw [c.apply_core_self]
    show core'.termAt _ = _
    rw [RaftCore.termAt_entry above, found]
    rfl
  · intro q other
    exact c.apply_core_other _ other

end Runs

/-- The nodes of the cluster as a leader and those it broadcasts to, between two broadcasts. -/
structure Mirrors (s : Group FlatLog FlatLog) (c : Cluster) (n : Nat) : Prop where
  leader : s.leader = c.core n
  follower : ∀ p, p ≠ n → s.follower p = c.core p
  idle : ∀ p, s.task p = none

section Runs
variable [Bincode] {m : Membership} {c : Cluster} {Q P hit : Finset Nat} {n p : Nat}
  {s : Group FlatLog FlatLog} {start : Nat → Nat} {h : List LogEntry} {moves : List Group.Move}

theorem Mirrors.exchange (mirrors : Mirrors s c n)
    (conv : Group.Converging P start h hit moves s) (recordable : ∀ e ∈ h, Recordable FlatLog e)
    (member : n ∈ m.members) (inside : n ∈ Q) (among : p ∈ P) (other : p ∈ m.members)
    (inside' : p ∈ Q) (apart : p ≠ n) :
    ∃ c' s' hit', Onward m Q c c' ∧ Follows Group.step (Group.Within P) s (Group.exchange p) s' ∧
      Mirrors s' c' n ∧ Group.Converging P start h hit' (moves ++ Group.exchange p) s' ∧
      (c'.core n).lastApplied = (c.core n).lastApplied ∧
      (c'.server n).pending = (c.server n).pending := by
  obtain ⟨leader, follower, task⟩ := s
  obtain ⟨same, agree, idle⟩ := mirrors
  simp only at same agree idle
  subst same
  obtain ⟨listed, _, _, tracks, _⟩ := conv.peer p among
  obtain ⟨args, made⟩ : ∃ args, args = (c.core n).buildAppendEntries p := ⟨_, rfl⟩
  let s₁ : Group FlatLog FlatLog :=
    ⟨c.core n, follower, Function.update task p (some (.asked args))⟩
  have built : Group.step ⟨c.core n, follower, task⟩ (.build p) = some s₁ := by
    simp only [Group.step, idle p, if_pos listed, ← made, s₁]
  have asked : s₁.task p = some (.asked args) := Function.update_self ..
  have tracks₁ : Group.Tracks s₁ h p _ _ := tracks.retask (made ▸ tracks.build)
  obtain ⟨reply, core, l', handled, tracks₂, _⟩ := tracks₁.deliver recordable asked ⟨0, 0⟩
  let s₂ : Group FlatLog FlatLog := ⟨c.core n, Function.update follower p core,
    Function.update s₁.task p (some (.answered args reply))⟩
  have delivered : Group.step s₁ (.deliver p ⟨0, 0⟩) = some s₂ := by
    simp only [Group.step, asked, handled]
    rfl
  have answered : s₂.task p = some (.answered args reply) := Function.update_self ..
  obtain ⟨leader, ran, folded, aside, _⟩ := tracks₂.fold answered
  obtain ⟨_, _, conv₁⟩ := conv.step recordable (show Group.Within P _ (.build p) from trivial) built
  obtain ⟨_, _, conv₂⟩ :=
    conv₁.step recordable (show Group.Within P s₁ (.deliver p ⟨0, 0⟩) from among) delivered
  obtain ⟨hit₃, _, conv₃⟩ := conv₂.step recordable (show Group.Within P s₂ (.fold p) from among) folded
  have follows : Follows Group.step (Group.Within P) ⟨c.core n, follower, task⟩ (Group.exchange p) _ :=
    .prepend trivial built (.prepend among delivered (.prepend among folded .refl))
  have handled' : handleAppendEntries ⟨0, 0⟩ args (c.core p) = (.ok reply, core) := by
    rw [← handled]
    exact congrArg _ (agree p apart).symm
  obtain ⟨c₁, first, server, replaced, others, sent⟩ :=
    request_answered member other inside inside' apart tracks.repairing.leads listed made handled'
  have acted : effect m c₁ (.appendAnswer _) = some (appendAnswerEffect _ (c₁.server n)) := if_pos sent
  have underway := tracks₂.task
  rw [answered] at underway
  have current : ¬ (c.server n).core.hard.currentTerm < reply.term :=
    Nat.not_lt.mpr underway.2.2.1
  have leads : (c.server n).core.role = .leader := tracks.repairing.leads
  have still : ¬ ((c.server n).core.role ≠ .leader ∨
      (c.server n).core.hard.currentTerm ≠ args.term) := by
    simp [leads, made, buildAppendEntries]
  simp only [appendAnswerEffect, server, if_neg current, if_neg still] at acted
  rw [show (c.server n).core.onAppendEntriesReply p args.lastSent reply = leader from ran.symm] at acted
  have second : Onward m Q c₁ (c₁.apply n _) :=
    onward_of_effect (.appendAnswer _) rfl member ⟨inside', inside⟩ acted
  have only : leader = _ := (aside (p + 1) (Nat.succ_ne_self p)).only
  refine ⟨_, _, hit₃, first.trans second, follows, ⟨?_, ?_, ?_⟩, ?_, ?_, ?_⟩
  · rw [c₁.apply_core_self]
  · intro q elsewhere
    rw [c₁.apply_core_other _ elsewhere]
    by_cases here : q = p
    · rw [here, replaced]
      exact Function.update_self ..
    · rw [others q here, ← agree q elsewhere]
      exact Function.update_of_ne here _ _
  · intro q
    by_cases here : q = p
    · rw [here]
      exact Function.update_self ..
    · simp [s₁, here, idle]
  · simpa only [Group.exchange, List.append_assoc, List.cons_append, List.nil_append] using conv₃
  · rw [c₁.apply_core_self, only]
  · simp [Cluster.apply]

theorem Mirrors.exchanges (mirrors : Mirrors s c n)
    (conv : Group.Converging P start h hit moves s) (recordable : ∀ e ∈ h, Recordable FlatLog e)
    (member : n ∈ m.members) (inside : n ∈ Q) (around : ∀ p ∈ P, p ∈ m.members ∧ p ∈ Q ∧ p ≠ n)
    {peers : List Nat} (among : ∀ p ∈ peers, p ∈ P) :
    ∃ c' s' hit', Onward m Q c c' ∧
      Follows Group.step (Group.Within P) s (peers.flatMap Group.exchange) s' ∧ Mirrors s' c' n ∧
      Group.Converging P start h hit' (moves ++ peers.flatMap Group.exchange) s' ∧
      (c'.core n).lastApplied = (c.core n).lastApplied ∧
      (c'.server n).pending = (c.server n).pending := by
  induction peers generalizing c s hit moves with
  | nil =>
    refine ⟨c, s, hit, .refl, .refl, mirrors, ?_, rfl, rfl⟩
    simpa only [List.flatMap_nil, List.append_nil] using conv
  | cons p rest ih =>
    obtain ⟨other, inside', apart⟩ := around p (among p List.mem_cons_self)
    obtain ⟨c₁, s₁, hit₁, first, follows, mirrors₁, conv₁, applied, pending⟩ :=
      mirrors.exchange conv recordable member inside (among p List.mem_cons_self) other inside' apart
    obtain ⟨c₂, s₂, hit₂, second, follows', mirrors₂, conv₂, applied', pending'⟩ :=
      ih mirrors₁ conv₁ fun q later => among q (List.mem_cons_of_mem _ later)
    refine ⟨c₂, s₂, hit₂, first.trans second, follows.trans follows', mirrors₂, ?_,
      applied'.trans applied, pending'.trans pending⟩
    simpa only [List.flatMap_cons, List.append_assoc] using conv₂

omit [Bincode] in
theorem rounds_fold (P : Finset Nat) (k : Nat) (inside : p ∈ P) :
    ((List.replicate k P.toList).flatten.flatMap Group.exchange).countP (·.folds p) = k := by
  have counted (peers : List Nat) :
      (peers.flatMap Group.exchange).countP (·.folds p) = peers.count p := by
    induction peers with
    | nil => rfl
    | cons q rest ih =>
      rw [List.flatMap_cons, List.countP_append, ih, List.count_cons]
      simp [Group.exchange, Group.Move.folds, Nat.add_comm, List.countP_cons]
  rw [counted, List.count_flatten, List.map_replicate, List.sum_replicate_nat,
    List.count_eq_one_of_mem P.nodup_toList (Finset.mem_toList.mpr inside), Nat.mul_one]

theorem leader_commits {a : Spec} (rel : Refines m c a) (flat : Uncompacted m c)
    (tracked : Tracked (c.core n)) (member : n ∈ m.members) (inside : n ∈ Q)
    (listed : ∀ q ∈ Q, q ∈ m.members) (majority : m.members.length < 2 * Q.card)
    (several : 1 < Q.card) (leads : (c.core n).role = .leader)
    (own : (c.core n).termAt (c.core n).lastLogIndex = some (c.core n).hard.currentTerm)
    (terms : ∀ q ∈ Q, (c.core q).hard.currentTerm ≤ (c.core n).hard.currentTerm) :
    ∃ c', Onward m Q c c' ∧ (c'.core n).lastApplied = (c.core n).lastApplied ∧
      (c'.server n).pending = (c.server n).pending ∧
      ∀ q ∈ Q, (c.core n).lastLogIndex ≤ (c'.core q).commitIndex ∧
        ∃ l, (c'.core q).Holds l ∧ a.log n <+: l := by
  have node := rel.elections.node n member
  have last : (c.core n).lastLogIndex = (a.log n).length :=
    (rel.node n member).sound.holds.lastLogIndex
  have around : ∀ p ∈ Q.erase n, p ∈ m.members ∧ p ∈ Q ∧ p ≠ n := by
    intro p among
    obtain ⟨apart, among⟩ := Finset.mem_erase.mp among
    exact ⟨listed p among, among, apart⟩
  have size := Finset.card_erase_of_mem inside
  have quorate : (c.core n).quorum ≤ (Q.erase n).card + 1 := by
    rw [RaftCore.quorum, node.clusterSize, size]
    omega
  have conv := rel.converging flat tracked member leads own (Finset.card_pos.mp (by omega)) quorate
    fun p among => by
      obtain ⟨other, inside', apart⟩ := around p among
      exact ⟨node.peers ▸ Membership.listed member other apart, terms p inside'⟩
  have recordable := rel.recordable member leads
  have mirrors : Mirrors (Group.of c n) c n := ⟨rfl, fun _ _ => rfl, fun _ => rfl⟩
  have among (k : Nat) : ∀ p ∈ (List.replicate k (Q.erase n).toList).flatten, p ∈ Q.erase n := by
    intro p listed
    obtain ⟨_, round, listed⟩ := List.mem_flatten.mp listed
    rw [List.eq_of_mem_replicate round] at listed
    exact Finset.mem_toList.mp listed
  obtain ⟨c₁, s₁, _, first, replicate, mirrors₁, conv₁, applied, pending⟩ :=
    mirrors.exchanges conv recordable member inside around
      (among ((Q.erase n).sup fun p => ((c.core n).nextIndex p).getD 0))
  obtain ⟨c₂, s₂, _, second, inform, mirrors₂, _, applied', pending'⟩ :=
    mirrors₁.exchanges conv₁ recordable member inside around (among 2)
  obtain ⟨committed, holds, known⟩ := conv.completes recordable replicate
    (fun p elsewhere => by
      rw [rounds_fold _ _ elsewhere]
      exact Finset.le_sup (f := fun p => ((c.core n).nextIndex p).getD 0) elsewhere)
    inform (fun p elsewhere => (rounds_fold _ 2 elsewhere).ge)
  refine ⟨c₂, first.trans second, applied'.trans applied, pending'.trans pending, ?_⟩
  intro q inQ
  rw [last]
  by_cases here : q = n
  · rw [here, ← mirrors₂.leader]
    exact ⟨committed, _, holds, List.prefix_rfl⟩
  · rw [← mirrors₂.follower q here]
    exact known q (Finset.mem_erase.mpr ⟨here, inQ⟩)

theorem leader_acknowledges {a : Spec} (rel : Refines m c a) (member : n ∈ m.members)
    (inside : n ∈ Q) {entry : LogEntry} (waits : entry ∈ (c.server n).pending)
    (committed : entry.index ≤ (c.core n).commitIndex)
    (unapplied : (c.core n).lastApplied < entry.index) :
    ∃ c', Onward m Q c c' ∧ .acknowledged n entry ∈ c'.trace ∧
      c'.core n = { c.core n with lastApplied := (c.core n).commitIndex } ∧
      ∀ q, q ≠ n → c'.core q = c.core q := by
  have stands := rel.node n member
  have within := (rel.known n).within rel.invariant
  rw [stands.commit] at within
  have taken : (c.core n).takeCommitted = _ := rel.takeCommitted member
  obtain ⟨batch, cut⟩ : ∃ batch, batch =
      ((a.log n).take (c.core n).commitIndex).drop (c.core n).lastApplied := ⟨_, rfl⟩
  rw [← cut] at taken
  obtain ⟨last, found⟩ : ∃ last, (a.log n)[(c.core n).commitIndex - 1]? = some last :=
    ⟨_, List.getElem?_eq_getElem (by omega)⟩
  have ends : batch.getLast? = some last := by
    rw [cut, List.getLast?_eq_getElem?, List.getElem?_drop, List.length_drop, List.length_take,
      Nat.min_eq_left within, List.getElem?_take_of_lt (by omega), ← found]
    congr 1
    omega
  have index : last.index = (c.core n).commitIndex := by
    have at_end := stands.sound.holds.indexed _ _ found
    omega
  have some_entry : batch ≠ [] := by
    rintro rfl
    cases ends
  have acted : effect m c (.take n) = some (takeEffect n (c.server n)) := rfl
  simp only [takeEffect, show (c.server n).core = c.core n from rfl, taken, if_neg some_entry] at acted
  obtain ⟨c₁, first, server₁, others₁, _⟩ := onward_server n (.take n) rfl member inside acted
  have acted₁ : effect m c₁ (.publish n batch) =
      some { server := { c₁.server n with
        taken := (c₁.server n).taken.erase batch, commitTx := last.index } } := by
    have kept : batch ∈ (c₁.server n).taken := by simp [server₁]
    simp only [effect, ends, if_pos kept]
  obtain ⟨c₂, second, server₂, others₂, _⟩ := onward_server n (.publish n batch) rfl member inside acted₁
  have acted₂ : effect m c₂ (.acknowledge n entry) =
      some { server := { c₂.server n with pending := (c₂.server n).pending.erase entry }
             events := [.acknowledged n entry] } := by
    refine if_pos ⟨?_, ?_⟩
    · simpa only [server₂, server₁] using waits
    · simpa only [server₂, index] using committed
  obtain ⟨c₃, third, server₃, others₃, trace⟩ :=
    onward_server n (.acknowledge n entry) rfl member inside acted₂
  refine ⟨c₃, (first.trans second).trans third, ?_, ?_, ?_⟩
  · rw [trace]
    exact List.mem_append_right _ List.mem_cons_self
  · rw [Cluster.core, server₃, server₂, server₁]
  · intro q other
    rw [Cluster.core, others₃ q other, others₂ q other, others₁ q other]

end Runs

/-- Availability: in whatever state a run without snapshots has left the cluster, the nodes of any
quorum of two or more can, without hearing of any other node and without a restart, have a client's
command acknowledged by one of them; each of them then has it and knows that it is committed. All
that is asked is that numbers of the next terms and indices can be written. -/
theorem quorum_serves_write [Bincode] [LawfulBincode] {m : Membership} {c : Cluster}
    (run : Reachable m Plain c) {Q : Finset Nat} (listed : ∀ q ∈ Q, q ∈ m.members)
    (majority : m.members.length < 2 * Q.card) (several : 1 < Q.card) {t k : Nat}
    (terms : ∀ q ∈ Q, (c.server q).core.hard.currentTerm ≤ t)
    (lengths : ∀ q ∈ Q, (c.server q).core.lastLogIndex ≤ k) (command : Command)
    (encodes : ∀ i ≤ k + 2, Encodable ⟨t + 2, i, .noop⟩ ∧ Encodable ⟨t + 2, i, command⟩) :
    ∃ n ∈ Q, ∃ i c', Reaches (step m) (Alone Q) c c' ∧
      .acknowledged n ⟨t + 2, i, command⟩ ∈ c'.trace ∧
      ∀ q ∈ Q, i ≤ (c'.server q).core.commitIndex ∧
        (c'.server q).core.entryAt i = some ⟨t + 2, i, command⟩ := by
  obtain ⟨n, inside, c₁, first, leads, term, last, terms₁⟩ := quorum_elects run listed majority
    several terms lengths fun i within => (encodes i (Nat.le_succ_of_le within)).1
  have member := listed n inside
  have run₁ := run.onward first
  obtain ⟨a₁, rel₁, flat₁, _⟩ := plain_tracked run₁
  obtain ⟨entry, made⟩ : ∃ entry : LogEntry, entry = ⟨t + 2, (c₁.core n).lastLogIndex + 1, command⟩ :=
    ⟨_, rfl⟩
  have encodes' : Encodable entry := by
    rw [made]
    exact (encodes _ (by omega)).2
  obtain ⟨c₂, second, waits, leads₂, hard₂, applied₂, last₂, found, own, others₂⟩ :=
    leader_takes rel₁ flat₁ member inside leads (term.symm ▸ made) encodes'
  have run₂ := run₁.onward second
  obtain ⟨a₂, rel₂, flat₂, tracked₂⟩ := plain_tracked run₂
  have term₂ : (c₂.core n).hard.currentTerm = t + 2 := by rw [hard₂, term]
  have terms₂ : ∀ q ∈ Q, (c₂.core q).hard.currentTerm ≤ (c₂.core n).hard.currentTerm := by
    intro q among
    rw [term₂]
    by_cases here : q = n
    · exact here ▸ term₂.le
    · rw [others₂ q here]
      exact terms₁ q among
  have own₂ : (c₂.core n).termAt (c₂.core n).lastLogIndex = some (c₂.core n).hard.currentTerm := by
    rw [last₂, own, term₂, made]
  obtain ⟨c₃, third, applied₃, pending₃, known⟩ := leader_commits rel₂ flat₂ (tracked₂ n member)
    member inside listed majority several leads₂ own₂ terms₂
  rw [last₂] at known
  obtain ⟨a₃, rel₃, flat₃, _⟩ := plain_tracked (run₂.onward third)
  have index : entry.index = (c₁.core n).lastLogIndex + 1 := by rw [made]
  have unapplied : (c₃.core n).lastApplied < entry.index := by
    have stands := rel₁.node n member
    have within := (rel₁.known n).within rel₁.invariant
    rw [stands.commit, ← stands.sound.holds.lastLogIndex] at within
    have applied := stands.applied
    rw [applied₃, applied₂]
    omega
  obtain ⟨c₄, fourth, acked, core, others⟩ := leader_acknowledges rel₃ member inside
    (pending₃ ▸ waits) (known n inside).1 unapplied
  refine ⟨n, inside, entry.index, c₄, ((first.trans second).trans third).trans fourth, ?_, ?_⟩
  · rw [index, ← made]
    exact acked
  · have positive : 0 < entry.index := by omega
    have written : (a₂.log n)[entry.index - 1]? = some entry := by
      have above : (c₂.core n).snapshot.lastIncludedIndex < entry.index := by
        rwa [flat₂.node n member]
      rw [← (rel₂.node n member).sound.holds.entryAt above, found]
    intro q among
    obtain ⟨told, l, holds, begins⟩ := known q among
    have there : (c₃.core q).entryAt entry.index = some entry := by
      rw [holds.entryAt (by rwa [flat₃.node q (listed q among)])]
      obtain ⟨rest, rfl⟩ := begins
      rw [List.getElem?_append_left (List.getElem?_eq_some_iff.mp written).1, written]
    rw [index, ← made, ← index]
    by_cases here : q = n
    · subst here
      rw [show (c₄.server q).core = c₄.core q from rfl, core]
      exact ⟨told, there⟩
    · rw [show (c₄.server q).core = c₄.core q from rfl, others q here]
      exact ⟨told, there⟩

/-- Node 1 leads and has a command in its log when it is cut off. The other two go on. -/
theorem quorum_serves_write_split : ∃ c, Reachable trio Plain c ∧
    (c.server 1).core.role = .leader ∧ (c.server 1).core.lastLogIndex = 2 ∧
    ∃ n ∈ ({2, 3} : Finset Nat), ∃ i c', Reaches (step trio) (Alone {2, 3}) c c' ∧
      .acknowledged n ⟨3, i, .put [2] [2]⟩ ∈ c'.trace := by
  have ran : (execute (step trio) Plain (boot trio ⟨0, 0⟩) (lagging.take 3 ++
      [.propose 1 (.put [1] [1])])).any (fun c =>
        decide ((c.server 1).core.role = .leader ∧ (c.server 1).core.lastLogIndex = 2 ∧
          ∀ q ∈ ({2, 3} : Finset Nat), (c.server q).core.hard.currentTerm ≤ 1 ∧
            (c.server q).core.lastLogIndex ≤ 0)) = true := by
    decide +kernel
  obtain ⟨c, reached, shown⟩ := boot_shows trio ⟨0, 0⟩ trio_timed ran
  obtain ⟨leads, last, others⟩ := of_decide_eq_true shown
  have encodes : ∀ i ≤ 0 + 2, Encodable (⟨1 + 2, i, .noop⟩ : LogEntry) ∧
      Encodable (⟨1 + 2, i, .put [2] [2]⟩ : LogEntry) := by
    intro i within
    have small : i = 0 ∨ i = 1 ∨ i = 2 := by omega
    rcases small with rfl | rfl | rfl <;> exact ⟨⟨_, rfl⟩, ⟨_, rfl⟩⟩
  obtain ⟨n, inside, i, c', onward, acked, _⟩ := quorum_serves_write reached (by decide) (by decide)
    (by decide) (fun q among => (others q among).1) (fun q among => (others q among).2)
    (.put [2] [2]) encodes
  exact ⟨c, reached, leads, last, n, inside, i, c', onward, acked⟩

end WalKv
