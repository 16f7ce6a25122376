import WalKv.Raft.BackOff

/-! Several requests to one peer on their way at the same time: `propose` and the tick
broadcast without waiting for each other, and the replies come in as they like. What the
leader writes down about the peer only grows if a reply that has been overtaken is left out. -/
namespace WalKv
open Transition

/-- A leader in its term and one of its peers. The requests stand in the order they were
built, a reply goes with the number of its request. -/
structure Pipeline (V W : Type) where
  leader : RaftCore V
  follower : RaftCore W
  /-- All that the leader's log has had, with what a snapshot covers by now. -/
  log : List LogEntry
  sent : List AppendEntriesArgs
  replies : List (Nat × AppendEntriesReply)
  /-- The request of the last success that the leader took. -/
  newest : Option Nat
  /-- How many requests were built when the leader took it. -/
  mark : Nat

namespace Pipeline
open RaftCore
variable {V W : Type} {s s' : Pipeline V W} {peer m n k : Nat} {h l : List LogEntry}

/-- What happens to the two: the leader appends a command, builds a request for the peer or
takes a reply, the peer handles a request, and anything else happens on either side. -/
inductive Move (V W : Type) where
  | command (command : Command)
  | build
  | deliver (clock : Clock) (request : Nat)
  | fold (request : Nat) (reply : AppendEntriesReply)
  | aside (leader : RaftCore V)
  | beside (follower : RaftCore W)

/-- At the start of the term. -/
def elected (core : RaftCore V) (follower : RaftCore W) (log : List LogEntry) : Pipeline V W :=
  ⟨core.becomeLeader, follower, log, [], [], none, 0⟩

section Step
variable [WalOps V] [WalOps W] [Bincode]

/-- A reply of a newer term is not folded in: it ends the term. -/
def step (peer : Nat) (s : Pipeline V W) : Move V W → Option (Pipeline V W)
  | .command command =>
    let leader := (appendCommand command s.leader).2
    some { s with leader, log := s.log ++ leader.entries.drop s.leader.entries.length }
  | .build => some { s with sent := s.sent ++ [s.leader.buildAppendEntries peer] }
  | .deliver clock request =>
    s.sent[request]?.map fun args =>
      match handleAppendEntries clock args s.follower with
      | (.ok reply, follower) => { s with follower, replies := (request, reply) :: s.replies }
      | (.error _, follower) => { s with follower }
  | .fold request reply =>
    if (request, reply) ∈ s.replies ∧ reply.term ≤ s.leader.hard.currentTerm then
      s.sent[request]?.map fun args => { s with
        leader := s.leader.onAppendEntriesReply peer args.lastSent reply
        newest := if reply.success then some request else s.newest
        mark := if reply.success then s.sent.length else s.mark }
    else none
  | .aside leader => some { s with leader }
  | .beside follower => some { s with follower }

end Step

section Step
variable [WalOps V] [Bincode]

theorem command_holds {core : RaftCore V} (holds : core.Holds l) (command : Command) :
    (appendCommand command core).2.Holds
      (l ++ (appendCommand command core).2.entries.drop core.entries.length) := by
  obtain ⟨only, entries⟩ := appendCommand_entries command core
  have snapshot : (appendCommand command core).2.snapshot = core.snapshot := by rw [only]
  rcases entries with same | grown
  · rw [same, List.drop_length, List.append_nil]
    exact holds.congr snapshot same
  · rw [grown, List.drop_left]
    exact holds.concat (congrArg (· + 1) holds.lastLogIndex) snapshot grown

omit [WalOps V] [Bincode] in
theorem reply_holds {core : RaftCore V} (holds : core.Holds l) (lastSent : Nat)
    (reply : AppendEntriesReply) : (core.onAppendEntriesReply peer lastSent reply).Holds l := by
  obtain ⟨nextIndex, matchIndex, same | same⟩ := onAppendEntriesReply_cases peer lastSent reply core
  · rw [same]
    exact holds.congr rfl rfl
  · rw [same, advanceCommitIndex_eq]
    exact holds.congr rfl rfl

end Step

/-- What else the leader does in its term leaves its log and what it knows of the peer alone;
it may compact the log. -/
structure Aside (peer : Nat) (core core' : RaftCore V) : Prop where
  role : core'.role = core.role
  term : core'.hard.currentTerm = core.hard.currentTerm
  matched : core'.matchIndex peer = core.matchIndex peer
  next : core'.nextIndex peer = core.nextIndex peer
  holds : ∀ l, core.Holds l → core'.Holds l

/-- What else the peer does: its term does not go back, and as long as that is not newer than
the leader's its log matches the leader's log `h`. In the leader's term it keeps what the two
logs have in common. -/
structure Beside (term : Nat) (h : List LogEntry) (core core' : RaftCore W) : Prop where
  forward : core.hard.currentTerm ≤ core'.hard.currentTerm
  trails : core'.hard.currentTerm ≤ term → ∀ l, Trails core h l → ∃ l', Trails core' h l' ∧
    (core.hard.currentTerm = term → ∀ x, x <+: l → x <+: h → x <+: l')

/-- A success is taken if none was taken of a request that was built later, a refusal if no
success was taken since its request was built. Requests are built where the log still is. -/
def InOrder (peer : Nat) (h : List LogEntry) (s : Pipeline V W) : Move V W → Prop
  | .build => ∀ i, s.leader.nextIndex peer = some i → s.leader.snapshot.lastIncludedIndex < i
  | .fold request reply =>
    if reply.success then ∀ newest, s.newest = some newest → newest ≤ request
    else s.mark ≤ request
  | .aside leader => Aside peer s.leader leader
  | .beside follower => Beside s.leader.hard.currentTerm h s.follower follower
  | _ => True

/-- What holds once a success was taken: the leader asks for what follows, and none of what it
has asked since then is refused in its term. -/
structure Settled (s : Pipeline V W) (newest m n : Nat) : Prop where
  next : n = m + 1
  accepted : ∃ args reply, s.sent[newest]? = some args ∧ args.lastSent = m ∧
    (newest, reply) ∈ s.replies ∧ reply.success = true
  asked : ∀ k args, s.mark ≤ k → s.sent[k]? = some args → args.prevLogIndex = m
  refused : ∀ k reply, (k, reply) ∈ s.replies → s.mark ≤ k → reply.success = false →
    s.leader.hard.currentTerm < reply.term

/-- The peer's log, as long as the peer is not ahead in term: it has what it accepted. -/
def Tracked (s : Pipeline V W) (h : List LogEntry) : Prop :=
  s.follower.hard.currentTerm ≤ s.leader.hard.currentTerm → ∃ l, Trails s.follower h l ∧
    ∀ k args reply, (k, reply) ∈ s.replies → s.sent[k]? = some args → reply.success = true →
      s.follower.hard.currentTerm = s.leader.hard.currentTerm ∧ h.take args.lastSent <+: l

/-- The leader has matched the peer up to `m`, and goes on with `n`. -/
structure Kept (s : Pipeline V W) (peer : Nat) (h : List LogEntry) (m n : Nat) : Prop where
  leads : s.leader.role = .leader
  holds : s.leader.Holds s.log
  matched : s.leader.matchIndex peer = some m
  next : s.leader.nextIndex peer = some n
  above : m < n
  within : n ≤ s.log.length + 1
  built : ∀ args ∈ s.sent, Built s.log args ∧ args.term = s.leader.hard.currentTerm
  ordered : s.sent.Pairwise (·.lastSent ≤ ·.lastSent)
  known : ∀ k reply, (k, reply) ∈ s.replies → k < s.sent.length
  fresh : s.newest = none → m = 0
  settled : ∀ newest, s.newest = some newest → s.Settled newest m n
  tracked : s.Tracked h

namespace Kept

theorem elected {core : RaftCore V} {follower : RaftCore W} (holds : core.Holds l)
    (member : peer ∈ core.peers)
    (trails : follower.hard.currentTerm ≤ core.hard.currentTerm → ∃ own, Trails follower h own) :
    (Pipeline.elected core follower l).Kept peer h 0 (l.length + 1) where
  leads := rfl
  holds := holds.congr rfl rfl
  matched := if_pos member
  next := (if_pos member).trans (by rw [holds.lastLogIndex])
  above := Nat.succ_pos _
  within := Nat.le_refl _
  built := by simp [Pipeline.elected]
  ordered := .nil
  known := by simp [Pipeline.elected]
  fresh _ := rfl
  settled _ taken := by cases taken
  tracked current := by
    obtain ⟨own, trails⟩ := trails current
    exact ⟨own, trails, by simp [Pipeline.elected]⟩

theorem grow (kept : s.Kept peer h m n) {leader : RaftCore V} {log : List LogEntry}
    (role : leader.role = s.leader.role)
    (term : leader.hard.currentTerm = s.leader.hard.currentTerm)
    (matched : leader.matchIndex peer = s.leader.matchIndex peer)
    (next : leader.nextIndex peer = s.leader.nextIndex peer)
    (holds : leader.Holds log) (longer : s.log <+: log) :
    Kept { s with leader, log } peer h m n where
  leads := role.trans kept.leads
  holds
  matched := matched.trans kept.matched
  next := next.trans kept.next
  above := kept.above
  within := kept.within.trans (Nat.succ_le_succ longer.length_le)
  built args member := by
    obtain ⟨built, stamped⟩ := kept.built args member
    exact ⟨built.longer longer, stamped.trans term.symm⟩
  ordered := kept.ordered
  known := kept.known
  fresh := kept.fresh
  settled newest taken := by
    obtain ⟨next, accepted, asked, refused⟩ := kept.settled newest taken
    exact ⟨next, accepted, asked, fun k reply replied later failed =>
      term.symm ▸ refused k reply replied later failed⟩
  tracked current := by
    simp only [term] at current ⊢
    exact kept.tracked current

theorem build (kept : s.Kept peer h m n) (above : s.leader.snapshot.lastIncludedIndex < n) :
    Kept { s with sent := s.sent ++ [s.leader.buildAppendEntries peer] } peer h m n := by
  have asked : (s.leader.nextIndex peer).getD (s.leader.lastLogIndex + 1) = n := by
    rw [kept.next]
    rfl
  obtain ⟨built, prev, covers⟩ := kept.holds.built asked above kept.within
  have older {k : Nat} {reply : AppendEntriesReply} {args : AppendEntriesArgs}
      (replied : (k, reply) ∈ s.replies)
      (found : (s.sent ++ [s.leader.buildAppendEntries peer])[k]? = some args) :
      s.sent[k]? = some args := by
    rwa [List.getElem?_append_left (kept.known k reply replied)] at found
  refine ⟨kept.leads, kept.holds, kept.matched, kept.next, kept.above, kept.within, ?_, ?_, ?_,
    kept.fresh, fun newest taken => ?_, fun current => ?_⟩
  · intro args member
    rcases List.mem_append.mp member with old | new
    · exact kept.built args old
    · rw [List.mem_singleton.mp new]
      exact ⟨built, rfl⟩
  · refine List.pairwise_append.mpr ⟨kept.ordered, List.pairwise_singleton _ _, ?_⟩
    intro args old other new
    rw [List.mem_singleton.mp new, covers]
    exact (kept.built args old).1.within
  · intro k reply replied
    exact (kept.known k reply replied).trans (by simp)
  · obtain ⟨next, ⟨args, reply, found, rest⟩, before, refused⟩ := kept.settled newest taken
    refine ⟨next, ⟨args, reply, ?_, rest⟩, fun k args later found => ?_, refused⟩
    · rw [List.getElem?_append_left (List.getElem?_eq_some_iff.mp found).1]
      exact found
    · rcases Nat.lt_or_ge k s.sent.length with old | new
      · rw [List.getElem?_append_left old] at found
        exact before k args later found
      · rw [List.getElem?_append_right new] at found
        rw [List.mem_singleton.mp (List.mem_of_getElem? found), prev]
        omega
  · obtain ⟨l, trails, accepted⟩ := kept.tracked current
    exact ⟨l, trails, fun k args reply replied found =>
      accepted k args reply replied (older replied found)⟩

theorem beside (kept : s.Kept peer h m n) {follower : RaftCore W}
    (tracked : Tracked { s with follower } h) : Kept { s with follower } peer h m n :=
  { kept with
    settled := fun newest taken =>
      have settled := kept.settled newest taken
      ⟨settled.next, settled.accepted, settled.asked, settled.refused⟩
    tracked }

theorem answer (kept : s.Kept peer h m n) {follower : RaftCore W} {reply : AppendEntriesReply}
    (sent : k < s.sent.length)
    (tracked : Tracked { s with follower, replies := (k, reply) :: s.replies } h)
    (honest : s.newest ≠ none → s.mark ≤ k → reply.success = false →
      s.leader.hard.currentTerm < reply.term) :
    Kept { s with follower, replies := (k, reply) :: s.replies } peer h m n :=
  { kept with
    known := by
      intro j other replied
      rcases List.mem_cons.mp replied with new | old
      · cases new
        exact sent
      · exact kept.known j other old
    settled := by
      intro newest taken
      obtain ⟨next, ⟨args, first, found, last, replied, success⟩, asked, refused⟩ :=
        kept.settled newest taken
      refine ⟨next, ⟨args, first, found, last, List.mem_cons_of_mem _ replied, success⟩, asked, ?_⟩
      intro j other replied later failed
      rcases List.mem_cons.mp replied with new | old
      · cases new
        exact honest (taken ▸ Option.some_ne_none newest) later failed
      · exact refused j other old later failed
    tracked }

section Step
variable [WalOps V] [WalOps W] [Bincode]

theorem deliver_current (kept : s.Kept peer h m n) (indexed : Indexed h) (inside : s.log <+: h)
    {args : AppendEntriesArgs} (found : s.sent[k]? = some args) (clock : Clock)
    (current : s.follower.hard.currentTerm ≤ s.leader.hard.currentTerm) :
    ∃ s', s.step peer (.deliver clock k) = some s' ∧ s'.Kept peer h m n := by
  obtain ⟨built, stamped⟩ := kept.built args (List.mem_of_getElem? found)
  obtain ⟨l, trails, accepted⟩ := kept.tracked current
  obtain ⟨l', trails', common, term, outcome⟩ :=
    trails.handle (built.longer inside) indexed clock
  have keeps (j : Nat) (other : AppendEntriesArgs) (reply : AppendEntriesReply)
      (replied : (j, reply) ∈ s.replies) (asked : s.sent[j]? = some other)
      (success : reply.success = true) : h.take other.lastSent <+: l' :=
    common _ (accepted j other reply replied asked success).2 (List.take_prefix _ _)
  rw [stamped] at term outcome
  rw [Pipeline.step, found, Option.map_some]
  rcases handled : handleAppendEntries clock args s.follower with ⟨stop | reply, follower⟩ <;>
    rw [handled] at trails' term outcome
  · refine ⟨_, rfl, kept.beside fun _ => ⟨l', trails', ?_⟩⟩
    intro j other reply replied asked success
    exact ⟨term.trans (Nat.max_eq_right current), keeps j other reply replied asked success⟩
  · refine ⟨_, rfl, kept.answer (List.getElem?_eq_some_iff.mp found).1
      (fun _ => ⟨l', trails', ?_⟩) ?_⟩
    · intro j other reply' replied asked success
      refine ⟨term.trans (Nat.max_eq_right current), ?_⟩
      rcases List.mem_cons.mp replied with new | old
      · cases new
        cases Option.some.inj (found.symm.trans asked)
        rcases outcome reply rfl with ⟨_, _, merged⟩ | ⟨failed, _⟩
        · rw [merged]
          exact Consensus.shown_prefix_merge _ _
        · rw [failed] at success
          cases success
      · exact keeps j other reply' old asked success
    · intro taken later failed
      exfalso
      obtain ⟨newest, taken⟩ := Option.ne_none_iff_exists'.mp taken
      obtain ⟨_, ⟨first, reply', asked, last, replied, success⟩, since, _⟩ :=
        kept.settled newest taken
      rcases outcome reply rfl with ⟨success', _⟩ | ⟨_, _, behind⟩
      · rw [failed] at success'
        cases success'
      · refine behind current ?_
        rw [since k args later found, ← last]
        exact (accepted newest first reply' replied asked success).2

theorem deliver_newer (kept : s.Kept peer h m n) {args : AppendEntriesArgs}
    (found : s.sent[k]? = some args) (clock : Clock)
    (newer : s.leader.hard.currentTerm < s.follower.hard.currentTerm) :
    ∃ s', s.step peer (.deliver clock k) = some s' ∧ s'.Kept peer h m n := by
  obtain ⟨_, stamped⟩ := kept.built args (List.mem_of_getElem? found)
  obtain ⟨seen, _, term, ⟨stays, refused⟩ | ⟨_, _, current⟩⟩ :=
    handleAppendEntries_cases clock args s.follower
  · rw [Pipeline.step, found, Option.map_some]
    rw [stamped, Nat.max_eq_left newer.le] at term
    rcases handled : handleAppendEntries clock args s.follower with ⟨stop | reply, follower⟩ <;>
      rw [handled] at stays refused
    all_goals
      have ahead : s.leader.hard.currentTerm < follower.hard.currentTerm := by
        rw [show follower = seen from stays, term]
        exact newer
    · exact ⟨_, rfl, kept.beside fun current => absurd ahead (Nat.not_lt.mpr current)⟩
    · obtain ⟨_, told, _⟩ := refused reply rfl
      refine ⟨_, rfl, kept.answer (List.getElem?_eq_some_iff.mp found).1
        (fun current => absurd ahead (Nat.not_lt.mpr current)) fun _ _ _ => ?_⟩
      rw [told, term]
      exact newer
  · omega

omit [WalOps V] [WalOps W] [Bincode] in
theorem matched_le (kept : s.Kept peer h m n) {args : AppendEntriesArgs}
    (found : s.sent[k]? = some args) (order : ∀ newest, s.newest = some newest → newest ≤ k) :
    m ≤ args.lastSent := by
  cases taken : s.newest with
  | none =>
    rw [kept.fresh taken]
    exact Nat.zero_le _
  | some newest =>
    obtain ⟨first, _, asked, last, _⟩ := (kept.settled newest taken).accepted
    obtain ⟨within, rfl⟩ := List.getElem?_eq_some_iff.mp asked
    obtain ⟨bound, rfl⟩ := List.getElem?_eq_some_iff.mp found
    rw [← last]
    rcases Nat.lt_or_eq_of_le (order newest taken) with earlier | same
    · exact List.pairwise_iff_getElem.mp kept.ordered newest k within bound earlier
    · subst same
      exact Nat.le_refl _

omit [WalOps V] [WalOps W] [Bincode] in
theorem fold_success (kept : s.Kept peer h m n) {args : AppendEntriesArgs}
    {reply : AppendEntriesReply} (found : s.sent[k]? = some args)
    (replied : (k, reply) ∈ s.replies) (success : reply.success = true) :
    Kept { s with
      leader := s.leader.onAppendEntriesReply peer args.lastSent reply
      newest := some k
      mark := s.sent.length } peer h args.lastSent (args.lastSent + 1) := by
  have same : s.leader.onAppendEntriesReply peer args.lastSent reply = _ :=
    onAppendEntriesReply_taken kept.leads success
  have hard : (s.leader.onAppendEntriesReply peer args.lastSent reply).hard = s.leader.hard := by
    rw [same]
  have built := (kept.built args (List.mem_of_getElem? found)).1
  refine ⟨?_, kept.holds.congr (by rw [same]) (by rw [same]), ?_, ?_, Nat.lt_succ_self _,
    Nat.succ_le_succ built.within, ?_, kept.ordered, kept.known, by simp, ?_, ?_⟩
  · rw [same]
    exact kept.leads
  · rw [same]
    exact Function.update_self ..
  · rw [same]
    exact Function.update_self ..
  · simp only [hard]
    exact kept.built
  · rintro _ ⟨⟩
    refine ⟨rfl, ⟨args, reply, found, rfl, replied, success⟩, fun j other later asked => ?_,
      fun j other replied later => ?_⟩
    · have bound := (List.getElem?_eq_some_iff.mp asked).1
      simp only at bound later
      omega
    · have bound := kept.known j other replied
      simp only at later
      omega
  · simp only [Tracked, hard]
    exact kept.tracked

omit [WalOps V] [WalOps W] [Bincode] in
theorem fold_refusal (kept : s.Kept peer h m n) {reply : AppendEntriesReply}
    (replied : (k, reply) ∈ s.replies) (current : reply.term ≤ s.leader.hard.currentTerm)
    (failed : reply.success = false) (order : s.mark ≤ k) (lastSent : Nat) :
    ∃ n', Kept { s with leader := s.leader.onAppendEntriesReply peer lastSent reply } peer h m n' := by
  have none : s.newest = none := by
    by_contra taken
    obtain ⟨newest, taken⟩ := Option.ne_none_iff_exists'.mp taken
    have newer := (kept.settled newest taken).refused k reply replied order failed
    omega
  have zero := kept.fresh none
  obtain ⟨i, low, high, same⟩ : ∃ i, _ ∧ _ ∧
      s.leader.onAppendEntriesReply peer lastSent reply = _ :=
    onAppendEntriesReply_backs kept.leads failed
  rw [kept.next, Option.getD_some] at high
  have within := kept.within
  have above := kept.above
  rw [same]
  refine ⟨i, kept.leads, kept.holds.congr rfl rfl, kept.matched, Function.update_self .., by omega,
    by simp only; omega, kept.built, kept.ordered, kept.known, kept.fresh, fun newest taken => ?_,
    kept.tracked⟩
  simp only [none] at taken
  cases taken

theorem command (kept : s.Kept peer h m n) (command : Command) : ∃ s',
    s.step peer (.command command) = some s' ∧ s'.Kept peer h m n := by
  have only := (appendCommand_entries command s.leader).1
  exact ⟨_, rfl, kept.grow (by rw [only]) (by rw [only]) (by rw [only]) (by rw [only])
    (command_holds kept.holds command) (List.prefix_append _ _)⟩

theorem step (kept : s.Kept peer h m n) (indexed : Indexed h) {move : Move V W}
    (order : s.InOrder peer h move) (stepped : s.step peer move = some s')
    (inside : s.log <+: h) : ∃ m' n', m ≤ m' ∧ s'.Kept peer h m' n' := by
  cases move with
  | command command =>
    obtain ⟨_, ran, kept'⟩ := kept.command command
    cases ran.symm.trans stepped
    exact ⟨m, n, Nat.le_refl m, kept'⟩
  | build =>
    cases stepped
    exact ⟨m, n, Nat.le_refl m, kept.build (order n kept.next)⟩
  | deliver clock k =>
    have sent := stepped
    rw [Pipeline.step, Option.map_eq_some_iff] at sent
    obtain ⟨args, found, _⟩ := sent
    obtain ⟨_, ran, kept'⟩ : ∃ s', s.step peer (.deliver clock k) = some s' ∧
        s'.Kept peer h m n := by
      rcases Nat.lt_or_ge s.leader.hard.currentTerm s.follower.hard.currentTerm with newer | current
      · exact kept.deliver_newer found clock newer
      · exact kept.deliver_current indexed inside found clock current
    cases ran.symm.trans stepped
    exact ⟨m, n, Nat.le_refl m, kept'⟩
  | fold k reply =>
    rw [Pipeline.step, Option.ite_none_right_eq_some, Option.map_eq_some_iff] at stepped
    obtain ⟨⟨replied, current⟩, args, found, rfl⟩ := stepped
    rw [InOrder] at order
    cases success : reply.success with
    | true =>
      rw [if_pos success] at order
      exact ⟨_, _, kept.matched_le found order, kept.fold_success found replied success⟩
    | false =>
      rw [if_neg (by simp [success])] at order
      obtain ⟨n', kept'⟩ := kept.fold_refusal replied current success order args.lastSent
      exact ⟨m, n', Nat.le_refl m, kept'⟩
  | aside leader =>
    cases stepped
    exact ⟨m, n, Nat.le_refl m, kept.grow order.role order.term order.matched order.next
      (order.holds _ kept.holds) List.prefix_rfl⟩
  | beside follower =>
    cases stepped
    refine ⟨m, n, Nat.le_refl m, kept.beside fun current => ?_⟩
    obtain ⟨l, trails, accepted⟩ := kept.tracked (order.forward.trans current)
    obtain ⟨l', trails', common⟩ := order.trails current l trails
    refine ⟨l', trails', fun k args reply replied found success => ?_⟩
    obtain ⟨term, own⟩ := accepted k args reply replied found success
    exact ⟨Nat.le_antisymm current (term ▸ order.forward), common term _ own (List.take_prefix _ _)⟩

end Step
end Kept

section Run
variable [WalOps V] [WalOps W] [Bincode]

theorem step_log {move : Move V W} (stepped : s.step peer move = some s') : s.log <+: s'.log := by
  cases move with
  | command command =>
    cases stepped
    exact List.prefix_append _ _
  | deliver clock k =>
    rw [Pipeline.step, Option.map_eq_some_iff] at stepped
    obtain ⟨args, _, rfl⟩ := stepped
    rcases handleAppendEntries clock args s.follower with ⟨stop | reply, follower⟩ <;>
      exact List.prefix_rfl
  | fold k reply =>
    rw [Pipeline.step, Option.ite_none_right_eq_some, Option.map_eq_some_iff] at stepped
    obtain ⟨_, args, _, rfl⟩ := stepped
    exact List.prefix_rfl
  | build | aside leader | beside follower =>
    cases stepped
    exact List.prefix_rfl

theorem step_holds {move : Move V W} (holds : s.leader.Holds s.log)
    (order : s.InOrder peer h move) (stepped : s.step peer move = some s') :
    s'.leader.Holds s'.log := by
  cases move with
  | command command =>
    cases stepped
    exact command_holds holds command
  | deliver clock k =>
    rw [Pipeline.step, Option.map_eq_some_iff] at stepped
    obtain ⟨args, _, rfl⟩ := stepped
    rcases handleAppendEntries clock args s.follower with ⟨stop | reply, follower⟩ <;>
      exact holds
  | fold k reply =>
    rw [Pipeline.step, Option.ite_none_right_eq_some, Option.map_eq_some_iff] at stepped
    obtain ⟨_, args, _, rfl⟩ := stepped
    exact reply_holds holds args.lastSent reply
  | aside leader =>
    cases stepped
    exact order.holds _ holds
  | build | beside follower =>
    cases stepped
    exact holds

theorem Kept.run (kept : s.Kept peer h m n) (indexed : Indexed h)
    (run : Reaches (Pipeline.step peer) (InOrder peer h) s s') (inside : s'.log <+: h) :
    ∃ m' n', m ≤ m' ∧ s'.Kept peer h m' n' := by
  induction run with
  | refl => exact ⟨m, n, Nat.le_refl m, kept⟩
  | next move _ order stepped ih =>
    have shorter := (step_log stepped).trans inside
    obtain ⟨m', n', grown, kept'⟩ := ih shorter
    obtain ⟨m'', n'', grown', kept''⟩ := kept'.step indexed order stepped shorter
    exact ⟨m'', n'', grown.trans grown', kept''⟩

/-- If no reply is taken that a later success has overtaken, the match index of the peer never
goes back in the term, and the next index stays above it. -/
theorem bookkeeping_monotone {core : RaftCore V} {follower : RaftCore W} (holds : core.Holds h)
    (member : peer ∈ core.peers)
    (run : Reaches (step peer) (InOrder peer s'.log) (elected core follower h) s)
    (later : Reaches (step peer) (InOrder peer s'.log) s s')
    (trails : follower.hard.currentTerm ≤ core.hard.currentTerm →
      ∃ l, Trails follower s'.log l) :
    ∃ m m' n', s.leader.matchIndex peer = some m ∧ s'.leader.matchIndex peer = some m' ∧
      s'.leader.nextIndex peer = some n' ∧ m ≤ m' ∧ m' < n' := by
  have started : (elected core follower h).leader.Holds (elected core follower h).log :=
    holds.congr rfl rfl
  have whole : s'.leader.Holds s'.log :=
    (run.trans later).invariant (P := fun s => s.leader.Holds s.log) started step_holds
  have shorter : s.log <+: s'.log :=
    later.invariant (P := fun t => s.log <+: t.log) List.prefix_rfl
      fun inside _ stepped => inside.trans (step_log stepped)
  obtain ⟨m, n, _, kept⟩ := (Kept.elected holds member trails).run whole.indexed run shorter
  obtain ⟨m', n', grown, kept'⟩ := kept.run whole.indexed later List.prefix_rfl
  exact ⟨m, m', n', kept.matched, kept'.matched, kept'.next, grown, kept'.above⟩

end Run
end Pipeline

namespace Pipeline
open RaftCore

/-- The order of replies as it can be checked, with nothing else going on. -/
def inOrder {V W : Type} (peer : Nat) (s : Pipeline V W) : Move V W → Bool
  | .build => (s.leader.nextIndex peer).all (s.leader.snapshot.lastIncludedIndex < ·)
  | .fold request reply =>
    if reply.success then s.newest.all (· ≤ request) else s.mark ≤ request
  | .command _ | .deliver .. => true
  | .aside _ | .beside _ => false

theorem inOrder_sound {V W : Type} {peer : Nat} {h : List LogEntry} {s : Pipeline V W}
    {move : Move V W} (checked : inOrder peer s move = true) : s.InOrder peer h move := by
  cases move with
  | build =>
    intro i next
    rw [inOrder, next] at checked
    exact of_decide_eq_true checked
  | fold request reply =>
    rw [InOrder]
    rw [inOrder] at checked
    split_ifs at checked ⊢ with success
    · intro newest taken
      rw [taken] at checked
      exact of_decide_eq_true checked
    · exact of_decide_eq_true checked
  | command _ | deliver _ _ => trivial
  | aside _ | beside _ => cases checked

/-- Node 1 when it wins term 2 with the given log, and node 2 without one. -/
def winner (entries : List LogEntry) : RaftCore FlatLog :=
  { assemble ⟨0, 0⟩ ((Config.new 1).withPeers [⟨2, ""⟩]) HardFile.absent default FlatLog.empty
      entries with
    hard := ⟨2, some 1⟩ }

def joining : RaftCore FlatLog :=
  assemble ⟨0, 0⟩ ((Config.new 2).withPeers [⟨1, ""⟩]) HardFile.absent default FlatLog.empty []

/-- Two requests are accepted, the second one shows one entry more. -/
def pipelined : List (Move FlatLog FlatLog) :=
  [.command .noop, .build, .command (.put [1] [1]), .build, .deliver ⟨0, 0⟩ 0, .deliver ⟨0, 0⟩ 1]

theorem bookkeeping_monotone_pipelined : ∃ s s' : Pipeline FlatLog FlatLog,
    Reaches (step 2) (InOrder 2 s'.log) (elected (winner []) joining []) s ∧
    Reaches (step 2) (InOrder 2 s'.log) s s' ∧ s.leader.matchIndex 2 = some 1 ∧
    s'.leader.matchIndex 2 = some 2 ∧ ∃ n, s'.leader.nextIndex 2 = some n ∧ 2 < n := by
  have ran : ((execute (step 2) (fun s move => inOrder 2 s move = true)
      (elected (winner []) joining []) (pipelined ++ [.fold 0 ⟨2, true, 0⟩])).any fun s =>
        decide (s.leader.matchIndex 2 = some 1) &&
        inOrder 2 s (.fold 1 ⟨2, true, 0⟩) && (s.step 2 (.fold 1 ⟨2, true, 0⟩)).any fun s' =>
          decide (s'.leader.matchIndex 2 = some 2)) = true := by
    decide +kernel
  obtain ⟨s, run, shown⟩ := execute_shows ran
  simp only [Bool.and_eq_true, decide_eq_true_eq, Option.any_eq_true] at shown
  obtain ⟨⟨first, checked⟩, s', stepped, second⟩ := shown
  have run : Reaches (step 2) (InOrder 2 s'.log) (elected (winner []) joining []) s :=
    (run.weaken (P := fun _ => True) trivial (fun _ _ _ => trivial)
      fun _ checked => inOrder_sound checked).1
  have later : Reaches (step 2) (InOrder 2 s'.log) s s' :=
    .next _ .refl (inOrder_sound checked) stepped
  have trails : Trails joining s'.log [] :=
    ⟨by decide +kernel, List.nil_prefix, fun _ _ _ own => by simp at own⟩
  obtain ⟨_, _, n, _, matched, next, _, above⟩ := bookkeeping_monotone
    (by decide +kernel : (winner []).Holds []) (by decide) run later fun _ => ⟨[], trails⟩
  cases second.symm.trans matched
  exact ⟨s, s', run, later, first, second, n, next, above⟩

/-- Nothing but requests and their replies. -/
def Move.exchange {V W : Type} : Move V W → Bool
  | .aside _ | .beside _ => false
  | _ => true

/-- A success that a later one has overtaken puts the match index back, and a refusal that a
success has overtaken puts the next index back to it. -/
theorem overtaken_replies_lower :
    (∃ s s' : Pipeline FlatLog FlatLog,
      Reaches (step 2) (fun _ move => move.exchange = true) (elected (winner []) joining []) s ∧
      s.step 2 (.fold 0 ⟨2, true, 0⟩) = some s' ∧
      s.leader.matchIndex 2 = some 2 ∧ s'.leader.matchIndex 2 = some 1) ∧
    ∃ s s' : Pipeline FlatLog FlatLog,
      Reaches (step 2) (fun _ move => move.exchange = true)
        (elected (winner [⟨1, 1, .noop⟩]) joining [⟨1, 1, .noop⟩]) s ∧
      s.step 2 (.fold 1 ⟨2, false, 1⟩) = some s' ∧ s.leader.nextIndex 2 = some 2 ∧
      s'.leader.matchIndex 2 = some 1 ∧ s'.leader.nextIndex 2 = some 1 := by
  have success : ((execute (step 2) (fun _ move => move.exchange = true)
      (elected (winner []) joining []) (pipelined ++ [.fold 1 ⟨2, true, 0⟩])).any fun s =>
        decide (s.leader.matchIndex 2 = some 2) && (s.step 2 (.fold 0 ⟨2, true, 0⟩)).any fun s' =>
          decide (s'.leader.matchIndex 2 = some 1)) = true := by
    decide +kernel
  have refusal : ((execute (step 2) (fun _ move => move.exchange = true)
      (elected (winner [⟨1, 1, .noop⟩]) joining [⟨1, 1, .noop⟩])
      [.build, .build, .deliver ⟨0, 0⟩ 0, .deliver ⟨0, 0⟩ 1, .fold 0 ⟨2, false, 1⟩, .build,
        .deliver ⟨0, 0⟩ 2, .fold 2 ⟨2, true, 0⟩]).any fun s =>
        decide (s.leader.nextIndex 2 = some 2) && (s.step 2 (.fold 1 ⟨2, false, 1⟩)).any fun s' =>
          decide (s'.leader.matchIndex 2 = some 1 ∧ s'.leader.nextIndex 2 = some 1)) = true := by
    decide +kernel
  constructor
  · obtain ⟨s, run, shown⟩ := execute_shows success
    simp only [Bool.and_eq_true, decide_eq_true_eq, Option.any_eq_true] at shown
    obtain ⟨before, s', stepped, after⟩ := shown
    exact ⟨s, s', run, stepped, before, after⟩
  · obtain ⟨s, run, shown⟩ := execute_shows refusal
    simp only [Bool.and_eq_true, decide_eq_true_eq, Option.any_eq_true] at shown
    obtain ⟨before, s', stepped, after⟩ := shown
    exact ⟨s, s', run, stepped, before, after⟩

end Pipeline
end WalKv
