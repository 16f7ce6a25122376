import WalKv.Cluster.Simulation

/-! One round of replication with a leader that may have compacted its log: the
request it builds for a peer, and what a follower whose log is a prefix of the
leader's history makes of it. -/
namespace WalKv
open RaftCore

variable {leader follower core : Core} {h l : List LogEntry} {peer : Nat} {clock : Clock}

namespace RaftCore

/-- The next index a request for the peer starts from. -/
def nextFor (peer : Nat) (core : Core) : Nat :=
  (core.nextIndex peer).getD (core.lastLogIndex + 1)

/-- Everything the core can hand out, whatever its commit index becomes, is the
entry that the history has at that place. -/
def HandsOut (h : List LogEntry) (core : Core) : Prop :=
  ∀ k j e, (takeLoop k core).1[j]? = some e → h[core.lastApplied + j]? = some e

theorem Holds.handsOut (holds : core.Holds l) (shorter : l <+: h) : HandsOut h core := by
  intro k
  induction k generalizing core with
  | zero =>
    intro j e found
    simp [takeLoop] at found
  | succ k ih =>
    intro j e found
    by_cases covered : core.lastApplied + 1 ≤ core.snapshot.lastIncludedIndex
    · have missing : core.entryAt (core.lastApplied + 1) = none := by
        rw [RaftCore.entryAt, if_pos (by rw [baseIndex]; omega)]
      simp [takeLoop, missing] at found
    · have here := holds.entryAt (i := core.lastApplied + 1) (by omega)
      rw [Nat.add_sub_cancel] at here
      cases own : l[core.lastApplied]? with
      | none => simp [takeLoop, here, own] at found
      | some entry =>
        simp only [takeLoop, here, own] at found
        cases j with
        | zero =>
          obtain ⟨rest, rfl⟩ := shorter
          have bound := (List.getElem?_eq_some_iff.mp own).1
          cases found
          rw [Nat.add_zero, List.getElem?_append_left bound, own]
        | succ j =>
          have next : ({ core with lastApplied := core.lastApplied + 1 } : Core).Holds l :=
            holds.congr rfl rfl
          have later := ih next j e (by simpa using found)
          rwa [show core.lastApplied + (j + 1) = core.lastApplied + 1 + j by omega]

theorem Holds.build_above (holds : leader.Holds h)
    (above : leader.snapshot.lastIncludedIndex < leader.nextFor peer)
    (within : leader.nextFor peer ≤ leader.lastLogIndex + 1) :
    (leader.buildAppendEntries peer).prevLogTerm =
        Consensus.termAt h (leader.nextFor peer - 1) ∧
      (leader.buildAppendEntries peer).entries = h.drop (leader.nextFor peer - 1) := by
  rw [holds.lastLogIndex] at within
  constructor
  · show (leader.termAt (leader.nextFor peer - 1)).getD _ = _
    rw [holds.termAt (by omega) (by omega), Option.getD_some]
  · exact holds.entriesFrom above

theorem build_covered (positive : 1 ≤ leader.nextFor peer)
    (covered : leader.nextFor peer ≤ leader.snapshot.lastIncludedIndex) :
    (leader.buildAppendEntries peer).prevLogTerm = leader.snapshot.lastIncludedTerm ∧
      (leader.buildAppendEntries peer).entries = leader.entries := by
  constructor
  · show (leader.termAt (leader.nextFor peer - 1)).getD _ = _
    rw [Holds.termAt_below leader (by omega), Option.getD_none]
  · show leader.entriesFrom (leader.nextFor peer) = _
    rw [entriesFrom, if_pos (by rw [baseIndex]; omega)]

variable [Bincode]

/-- What a round may do to a follower of the history `h`: refuse and keep its
log, or leave a log that is again a prefix of the history; in both cases it
hands out entries of the history only. -/
def KeepsPrefix (h : List LogEntry) (follower : Core)
    (ended : Except Stop AppendEntriesReply × Core) : Prop :=
  ∃ reply core, ended = (.ok reply, core) ∧ HandsOut h core ∧
    (reply.success = false ∧ core.entries = follower.entries ∧ core.log = follower.log ∧
        core.snapshot = follower.snapshot ∨
      ∃ l, l <+: h ∧ core.Sound l)

/-- One round: the leader builds a request and the follower handles it. -/
def round (clock : Clock) (peer : Nat) (leader follower : Core) :
    Except Stop AppendEntriesReply × Core :=
  handleAppendEntries clock (leader.buildAppendEntries peer) follower

/-- The request skips nothing the follower lacks, or the follower refuses it. -/
def NoGap (peer : Nat) (leader follower : Core) : Prop :=
  leader.snapshot.lastIncludedIndex < leader.nextFor peer ∨
    leader.entries = [] ∨
    leader.snapshot.lastIncludedIndex ≤ follower.lastLogIndex ∨
    leader.hard.currentTerm < follower.hard.currentTerm ∨
    follower.lastLogIndex < leader.nextFor peer - 1 ∨
    (follower.termAt (leader.nextFor peer - 1)).any (· ≠ leader.snapshot.lastIncludedTerm) = true

omit [Bincode] in
theorem splice_prefix {keep p : Nat} (shorter : l <+: h) (kept : keep ≤ l.length)
    (reach : p ≤ l.length) : Consensus.splice keep l p (h.drop p) = h := by
  have longer := shorter.length_le
  have whole : l = h.take l.length := List.prefix_iff_eq_take.mp shorter
  have matching : Consensus.Matching l h := by
    rw [whole]
    exact Consensus.matching_take h l.length
  have agree : l.take p = h.take p := (Consensus.prefix_take shorter reach).symm
  have covered : l.take keep <+: h := (List.take_prefix _ _).trans shorter
  have spliced := Consensus.splice_merge (m := h.length) matching agree covered reach (by omega)
    le_rfl kept
  have merged := Consensus.merge_take_take h (m := h.length) longer
  rw [List.take_length] at spliced merged
  rw [spliced]
  rwa [← whole] at merged

theorem Sound.catchUp {args : AppendEntriesArgs} {p : Nat} (sound : core.Sound l)
    (shorter : l <+: h) (indexed : Indexed h) (reach : p ≤ l.length)
    (sent : args.entries = h.drop p) (encodable : ∀ e ∈ args.entries, Encodable e) :
    ∃ core', RaftCore.store args core = (.ok ⟨core.hard.currentTerm, true, 0⟩, core') ∧
      core'.Sound h := by
  have contiguous : ∀ j e, args.entries[j]? = some e → e.index = p + j + 1 := by
    rw [sent]
    exact indexed.drop p
  have spliced := splice_prefix shorter sound.holds.compacted reach
  rw [← sent] at spliced
  obtain ⟨core', ran, _, sound', _⟩ := sound.store reach contiguous encodable spliced.symm
  exact ⟨core', ran, sound'⟩

theorem splice_beyond {es : List LogEntry} {p : Nat}
    (contiguous : ∀ j e, es[j]? = some e → e.index = p + j + 1)
    (encodable : ∀ e ∈ es, Encodable e)
    (beyond : core.snapshot.lastIncludedIndex + core.entries.length ≤ p) :
    ∃ log, RaftCore.splice es core =
      (.ok (), { core with log, entries := core.entries ++ es }) := by
  induction es generalizing core p with
  | nil => exact ⟨core.log, by simp [RaftCore.splice]⟩
  | cons e es ih =>
    obtain ⟨index, contiguous⟩ := consecutive_tail contiguous
    have missing : core.termAt e.index = none := by
      rw [index, termAt, if_neg (by omega), if_neg (by rw [baseIndex]; omega),
        List.getElem?_eq_none (by rw [baseIndex]; omega)]
      rfl
    obtain ⟨bytes, encoded⟩ := encodable e (by simp)
    have appended : RaftCore.appendReplicated e core = (.ok (), core.withEntry bytes e) := by
      simp only [RaftCore.appendReplicated, encoded]
      rfl
    have behind : (core.withEntry bytes e).snapshot.lastIncludedIndex +
        (core.withEntry bytes e).entries.length ≤ p + 1 := by
      simp only [RaftCore.withEntry, List.length_append, List.length_singleton]
      omega
    obtain ⟨log, ran⟩ := ih contiguous
      (fun x member => encodable x (List.mem_cons_of_mem _ member)) behind
    refine ⟨log, ?_⟩
    rw [splice_cons, if_neg (by rw [index, baseIndex]; omega), missing]
    simp only
    rw [Fallible.bind_ok appended, ran]
    simp [RaftCore.withEntry]

theorem Sound.encodable (sound : core.Sound l) : ∀ e ∈ core.entries, Encodable e := by
  intro e member
  have reaches := sound.reaches
  rw [sound.holds.entries] at member
  have written : e ∈ l.drop (core.log.firstIndex - 1) := by
    rw [show core.snapshot.lastIncludedIndex = core.log.firstIndex - 1 +
      (core.snapshot.lastIncludedIndex - (core.log.firstIndex - 1)) by omega,
      ← List.drop_drop] at member
    exact List.mem_of_mem_drop member
  obtain ⟨i, bound, rfl⟩ := List.getElem_of_mem written
  have encoded := sound.backs.records.get (by rw [sound.backs.records.length_eq]; exact bound) bound
  exact ⟨_, encoded⟩

theorem refused_keeps {seen : Core} {hint : Nat} (follows : follower.Sound l) (shorter : l <+: h)
    (ledger : SameLedger follower seen) :
    KeepsPrefix h follower (.ok (seen.reject hint), seen) :=
  ⟨_, seen, rfl, (follows.holds.congr ledger.snapshot ledger.entries).handsOut shorter,
    Or.inl ⟨rfl, ledger.entries, ledger.log, ledger.snapshot⟩⟩

theorem stored_keeps {ended : Except Stop AppendEntriesReply × Core} {reply : AppendEntriesReply}
    (stored : ended = (.ok reply, core)) (sound : core.Sound l) (shorter : l <+: h) :
    KeepsPrefix h follower ended :=
  ⟨reply, core, stored, sound.holds.handsOut shorter, Or.inr ⟨l, shorter, sound⟩⟩

theorem store_gap {args : AppendEntriesArgs} {p : Nat} (sound : core.Sound l)
    (indexed : Indexed h) (sent : args.entries = h.drop p) (some_entry : args.entries ≠ [])
    (encodable : ∀ e ∈ args.entries, Encodable e) (beyond : l.length < p) :
    ¬ KeepsPrefix h follower (store args core) := by
  have compacted := sound.holds.compacted
  have length : core.entries.length = l.length - core.snapshot.lastIncludedIndex := by
    rw [sound.holds.entries, List.length_drop]
  have contiguous : ∀ j e, args.entries[j]? = some e → e.index = p + j + 1 := by
    rw [sent]
    exact indexed.drop p
  have behind : core.snapshot.lastIncludedIndex + core.entries.length ≤ p := by omega
  obtain ⟨log, ran⟩ := splice_beyond contiguous encodable behind
  rintro ⟨reply, core', ended, _, kept⟩
  rw [store, Fallible.bind_ok ran] at ended
  obtain ⟨⟩ := ended
  rcases kept with ⟨refused, _⟩ | ⟨l', _, sound'⟩
  · cases refused
  · obtain ⟨e, rest, first⟩ := List.exists_cons_of_ne_nil some_entry
    have index := contiguous 0 e (by simp [first])
    have entries := sound'.holds.entries
    simp only [adoptCommit_eq, first] at entries
    have here : l'[l.length]? = some e := by
      have found := congrArg (·[core.entries.length]?) entries
      simp only [List.getElem?_append_right le_rfl, Nat.sub_self, List.getElem?_cons_zero,
        List.getElem?_drop] at found
      rw [show core.snapshot.lastIncludedIndex + core.entries.length = l.length by omega] at found
      exact found.symm
    have there := sound'.holds.indexed _ e here
    omega

/-- A round between a leader of history `h` and a follower whose log is a prefix
of it keeps that log a prefix exactly when the request leaves no gap. -/
theorem round_keeps_prefix_iff (running : follower.Running) (led : leader.Sound h)
    (follows : follower.Sound l) (shorter : l <+: h) (positive : 1 ≤ leader.nextFor peer)
    (within : leader.nextFor peer ≤ leader.lastLogIndex + 1) :
    KeepsPrefix h follower (round clock peer leader follower) ↔ NoGap peer leader follower := by
  have last := follows.holds.lastLogIndex
  rw [round, running.handleAppendEntries]
  by_cases stale : leader.hard.currentTerm < follower.hard.currentTerm
  · rw [if_pos (show (leader.buildAppendEntries peer).term < _ from stale)]
    exact iff_of_true (refused_keeps follows shorter (.refl _))
      (Or.inr (Or.inr (Or.inr (Or.inl stale))))
  rw [if_neg (show ¬ (leader.buildAppendEntries peer).term < _ from stale)]
  have ledger := recognised_ledger follower (leader.buildAppendEntries peer) clock
  obtain ⟨seen, same⟩ : ∃ seen, seen =
    (follower.recognised (leader.buildAppendEntries peer)).armed clock := ⟨_, rfl⟩
  rw [← same] at ledger ⊢
  have sound : seen.Sound l := follows.congr ledger.snapshot ledger.entries ledger.log
  have ends : seen.lastLogIndex = follower.lastLogIndex :=
    sound.holds.lastLogIndex.trans last.symm
  have terms : seen.termAt (leader.nextFor peer - 1) =
      follower.termAt (leader.nextFor peer - 1) := by
    rw [RaftCore.termAt, RaftCore.termAt, baseIndex, baseIndex, ledger.snapshot, ledger.entries]
  have prev : (leader.buildAppendEntries peer).prevLogIndex = leader.nextFor peer - 1 := rfl
  rw [matchAndStore_run, prev, ends, terms]
  by_cases short : follower.lastLogIndex < leader.nextFor peer - 1
  · rw [if_pos short]
    exact iff_of_true (refused_keeps follows shorter ledger)
      (Or.inr (Or.inr (Or.inr (Or.inr (Or.inl short)))))
  rw [if_neg short]
  by_cases above : leader.snapshot.lastIncludedIndex < leader.nextFor peer
  · obtain ⟨_, sent⟩ := led.holds.build_above above within
    have encodable : ∀ e ∈ (leader.buildAppendEntries peer).entries, Encodable e := by
      intro e member
      refine led.encodable e ?_
      rw [led.holds.entries]
      rw [sent] at member
      exact (List.drop_suffix_drop_left h (by omega)).subset member
    refine iff_of_true ?_ (Or.inl above)
    split_ifs
    · exact refused_keeps follows shorter ledger
    · obtain ⟨core, stored, sound'⟩ :=
        sound.catchUp shorter led.holds.indexed (by omega) sent encodable
      exact stored_keeps stored sound' List.prefix_rfl
  · obtain ⟨stamp, sent⟩ := build_covered positive (Nat.le_of_not_lt above)
    rw [stamp]
    by_cases differs : (follower.termAt (leader.nextFor peer - 1)).any
        (· ≠ leader.snapshot.lastIncludedTerm) = true
    · rw [if_pos differs]
      exact iff_of_true (refused_keeps follows shorter ledger)
        (Or.inr (Or.inr (Or.inr (Or.inr (Or.inr differs)))))
    rw [if_neg differs]
    have encodable : ∀ e ∈ (leader.buildAppendEntries peer).entries, Encodable e :=
      sent ▸ led.encodable
    rw [led.holds.entries] at sent
    by_cases reached : leader.snapshot.lastIncludedIndex ≤ follower.lastLogIndex
    · obtain ⟨core, stored, sound'⟩ :=
        sound.catchUp shorter led.holds.indexed (by omega) sent encodable
      exact iff_of_true (stored_keeps stored sound' List.prefix_rfl)
        (Or.inr (Or.inr (Or.inl reached)))
    by_cases empty : leader.entries = []
    · rw [← led.holds.entries, empty] at sent
      have spliced {k : Nat} :
          l = Consensus.splice k l l.length (leader.buildAppendEntries peer).entries := by
        simp [sent, Consensus.splice]
      obtain ⟨core, stored, _, sound', _⟩ :=
        sound.store le_rfl (by simp [sent]) encodable spliced
      exact iff_of_true (stored_keeps stored sound' shorter) (Or.inr (Or.inl empty))
    · refine iff_of_false (store_gap sound led.holds.indexed sent ?_ encodable (by omega)) ?_
      · rw [sent, ← led.holds.entries]
        exact empty
      · rintro (open' | none | ends | old | beyond | refused)
        all_goals contradiction

end RaftCore

/-- Node 1 leads. Node 3 has its first entry only; node 2 has the second as well,
which node 1 hands out, snapshots and compacts before it appends a third. -/
def lagging : List Action :=
  [.timeout 1 ⟨0, 0⟩, .requestVote ⟨1, 2, ⟨1, 1, 0, 0⟩⟩ ⟨0, 0⟩, .voteAnswer ⟨2, 1, 1, ⟨1, true⟩⟩,
    .build 1 3, .appendEntries ⟨1, 3, ⟨1, 1, 0, 0, [⟨1, 1, .noop⟩], 0⟩⟩ ⟨0, 0⟩,
    .appendAnswer ⟨3, 1, 1, 1, ⟨1, true, 0⟩⟩,
    .propose 1 (.put [1] [1]), .build 1 2,
    .appendEntries ⟨1, 2, ⟨1, 1, 0, 0, [⟨1, 1, .noop⟩, ⟨1, 2, .put [1] [1]⟩], 1⟩⟩ ⟨0, 0⟩,
    .appendAnswer ⟨2, 1, 1, 2, ⟨1, true, 0⟩⟩,
    .take 1, .compact 1 2, .propose 1 (.put [1] [2])]

/-- The history of node 1 at the end of that run. -/
def laggingHistory : List LogEntry :=
  [⟨1, 1, .noop⟩, ⟨1, 2, .put [1] [1]⟩, ⟨1, 3, .put [1] [2]⟩]

/-- Node 2 has all but the third entry, and the round with it goes well. -/
theorem round_keeps_prefix_served : ∃ c, Reachable trio Orderly c ∧
    (c.server 1).core.role = .leader ∧ (c.server 1).core.snapshot.lastIncludedIndex = 2 ∧
    KeepsPrefix laggingHistory (c.server 2).core
      (round ⟨0, 0⟩ 2 (c.server 1).core (c.server 2).core) := by
  have ran : ((Transition.execute (step trio) Orderly (boot trio ⟨0, 0⟩) lagging).any fun c =>
      decide ((c.server 1).core.role = .leader ∧
        (c.server 1).core.snapshot.lastIncludedIndex = 2 ∧
        (c.server 2).core.Running ∧ (c.server 1).core.Sound laggingHistory ∧
        (c.server 2).core.Sound (laggingHistory.take 2) ∧ (c.server 1).core.nextFor 2 = 3 ∧
        (c.server 1).core.lastLogIndex = 3)) = true := by
    decide +kernel
  obtain ⟨c, reached, shown⟩ := boot_shows trio ⟨0, 0⟩ trio_timed ran
  obtain ⟨leads, compacted, running, led, follows, next, last⟩ := of_decide_eq_true shown
  refine ⟨c, reached, leads, compacted, ?_⟩
  exact (round_keeps_prefix_iff running led follows (List.take_prefix _ _) (by omega)
    (by omega)).mpr (Or.inl (by omega))

/-- Node 3 lacks an entry the snapshot covers. It accepts the third entry right
behind its first and would hand it out as the second. -/
theorem compacted_leader_leaves_gap : ∃ c l, Reachable trio Orderly c ∧
    (c.server 1).core.role = .leader ∧ (c.server 1).core.Sound laggingHistory ∧
    (c.server 3).core.Running ∧ (c.server 3).core.Sound l ∧ l <+: laggingHistory ∧
    1 ≤ (c.server 1).core.nextFor 3 ∧
    (c.server 1).core.nextFor 3 ≤ (c.server 1).core.lastLogIndex + 1 ∧
    ¬ KeepsPrefix laggingHistory (c.server 3).core
      (round ⟨0, 0⟩ 3 (c.server 1).core (c.server 3).core) := by
  have ran : ((Transition.execute (step trio) Orderly (boot trio ⟨0, 0⟩) lagging).any fun c =>
      decide ((c.server 1).core.role = .leader ∧ (c.server 1).core.Sound laggingHistory ∧
        (c.server 3).core.Running ∧ (c.server 3).core.Sound (laggingHistory.take 1) ∧
        (c.server 1).core.nextFor 3 = 2 ∧ (c.server 1).core.lastLogIndex = 3 ∧
        (takeLoop 2 (round ⟨0, 0⟩ 3 (c.server 1).core (c.server 3).core).2).1 =
          [⟨1, 1, .noop⟩, ⟨1, 3, .put [1] [2]⟩] ∧
        (round ⟨0, 0⟩ 3 (c.server 1).core (c.server 3).core).2.lastApplied = 0)) = true := by
    decide +kernel
  obtain ⟨c, reached, shown⟩ := boot_shows trio ⟨0, 0⟩ trio_timed ran
  obtain ⟨leads, led, running, follows, next, last, handed, start⟩ := of_decide_eq_true shown
  refine ⟨c, laggingHistory.take 1, reached, leads, led, running, follows, List.take_prefix _ _,
    by omega, by omega, ?_⟩
  rintro ⟨reply, core, ended, hands, _⟩
  rw [ended] at handed start
  have second := hands 2 1 ⟨1, 3, .put [1] [2]⟩ (by rw [handed]; rfl)
  rw [start] at second
  exact absurd second (by decide)

end WalKv
