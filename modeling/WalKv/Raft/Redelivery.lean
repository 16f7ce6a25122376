import WalKv.Raft.Splicing
import WalKv.Transition

/-! Requests of one leader that arrive late, again, or in another order. Each of them
shows a part of the leader's log, and a follower that accepts it keeps what it was
shown before. -/
namespace WalKv
open Transition

/-- A log together with how often `truncate_suffix` was called on it. -/
structure Metered (W : Type) where
  log : W
  cuts : Nat
  deriving DecidableEq, Repr

namespace Metered
variable {W : Type} [WalOps W]

def inner {α : Type} (m : Fallible Stop W α) : Fallible Stop (Metered W) α :=
  Fallible.part Metered.log (fun log metered => { metered with log }) m

instance : WalOps (Metered W) where
  append payload := inner (WalOps.append payload)
  sync := inner WalOps.sync
  truncateSuffix keepLast := do
    Fallible.modify fun metered => { metered with cuts := metered.cuts + 1 }
    inner (WalOps.truncateSuffix keepLast)
  truncatePrefix upTo := inner (WalOps.truncatePrefix upTo)
  readAll metered := WalOps.readAll metered.log

omit [WalOps W] in
theorem inner_ok {α : Type} {m : Fallible Stop W α} {metered : Metered W} {a : α} {log : W}
    (ran : m metered.log = (.ok a, log)) : inner m metered = (.ok a, { metered with log }) := by
  rw [inner, Fallible.part_run, ran]

instance [Journal W] : Journal (Metered W) where
  Shows metered := Journal.Shows metered.log
  Fits := Journal.Fits W
  append shown fits := by
    obtain ⟨index, _, appended, shown'⟩ := Journal.append shown fits
    exact ⟨index, _, inner_ok appended, shown'⟩
  sync shown := by
    obtain ⟨_, synced, shown'⟩ := Journal.sync shown
    exact ⟨_, inner_ok synced, shown'⟩
  truncateSuffix {metered _ _ _} shown cut := by
    obtain ⟨_, truncated, shown'⟩ := Journal.truncateSuffix shown cut
    have counted : ({ metered with cuts := metered.cuts + 1 } : Metered W).log = metered.log := rfl
    exact ⟨_, inner_ok (counted ▸ truncated), shown'⟩
  truncatePrefix upTo shown := by
    obtain ⟨_, n, cut, within, place, shown'⟩ := Journal.truncatePrefix upTo shown
    exact ⟨_, n, inner_ok cut, within, place, shown'⟩
  readAll shown := Journal.readAll (W := W) shown

end Metered

namespace RaftCore
variable {W : Type} [WalOps W] [Bincode] {core core' : RaftCore (Metered W)} {l : List LogEntry}
  {p : Nat}

theorem appendReplicated_cuts (e : LogEntry) (core : RaftCore (Metered W)) :
    (appendReplicated e core).2.log.cuts = core.log.cuts := by
  have kept : Fallible.Keeps (fun core core' : RaftCore (Metered W) =>
      core'.log.cuts = core.log.cuts) (appendReplicated e) := by
    refine .bind (fun first second => second.trans first) (fun _ => rfl) fun bytes => ?_
    exact .bind (fun first second => second.trans first) (fun _ => rfl) fun _ _ => rfl
  exact kept core

omit [Bincode] in
theorem truncateFrom_cuts (index : Nat) (core : RaftCore (Metered W)) :
    (truncateFrom index core).2.log.cuts = core.log.cuts + 1 := rfl

omit [Bincode] in
theorem sync_cuts (core : RaftCore (Metered W)) :
    (RaftCore.sync core).2.log.cuts = core.log.cuts := rfl

theorem Holds.splice_cuts {es : List LogEntry} (holds : core.Holds l) (reach : p ≤ l.length)
    (contiguous : ∀ j e, es[j]? = some e → e.index = p + j + 1) {core' : RaftCore (Metered W)}
    (ran : RaftCore.splice es core = (.ok (), core')) : core'.log.cuts =
      core.log.cuts + Consensus.cuts core.snapshot.lastIncludedIndex l p es := by
  induction es generalizing core l p with
  | nil =>
    cases ran
    rfl
  | cons e es ih =>
    obtain ⟨index, contiguous⟩ := consecutive_tail contiguous
    have extend {core₁ : RaftCore (Metered W)} {l' : List LogEntry} (holds : core₁.Holds l')
        (length : l'.length = p) (snapshot : core₁.snapshot = core.snapshot)
        (ran : (appendReplicated e >>= fun _ => RaftCore.splice es) core₁ = (.ok (), core')) :
        core'.log.cuts = core₁.log.cuts +
          Consensus.cuts core.snapshot.lastIncludedIndex (l' ++ [e]) (p + 1) es := by
      obtain ⟨⟨⟩, core₂, appended, ran⟩ := Fallible.of_bind_ok ran
      have kept := appendReplicated_cuts e core₁
      rcases appendReplicated_cases e core₁ with ⟨log, same⟩ | ⟨stop, log, stopped⟩
      · cases same.symm.trans appended
        rw [same] at kept
        have held : Holds { core₁ with log, entries := core₁.entries ++ [e] } (l' ++ [e]) :=
          holds.concat (by omega) rfl rfl
        rw [ih held (by simp; omega) contiguous ran, kept, ← snapshot]
      · cases stopped.symm.trans appended
    rcases holds.splice_step index reach es with
      ⟨inside, skip, same⟩ | ⟨above, own, found, differ, same⟩ | ⟨above, end', same⟩ <;>
      rw [same] at ran
    · rw [Consensus.cuts_skip skip]
      exact ih holds inside contiguous ran
    · have inside := (List.getElem?_eq_some_iff.mp found).1
      have held := holds.truncateFrom above inside.le
      have raised := truncateFrom_cuts (p + 1) core
      have snapshot : (RaftCore.truncateFrom (p + 1) core).2.snapshot = core.snapshot := rfl
      obtain ⟨⟨⟩, core₁, cut, ran⟩ := Fallible.of_bind_ok ran
      rw [cut] at held raised snapshot
      rw [Consensus.cuts_cut above found differ, extend held (by simp; omega) snapshot ran, raised]
      omega
    · rw [Consensus.cuts_append above end'.le]
      exact extend holds end' rfl ran

theorem Grounded.store_cuts [Journal W] {args : AppendEntriesArgs} (grounded : core.Grounded l false)
    (reach : p ≤ l.length) (contiguous : ∀ j e, args.entries[j]? = some e → e.index = p + j + 1)
    (recordable : ∀ e ∈ args.entries, Recordable (Metered W) e) :
    (RaftCore.store args core).2.log.cuts =
      core.log.cuts + Consensus.cuts core.snapshot.lastIncludedIndex l p args.entries := by
  obtain ⟨core₁, _, ran, _, _, grounded₁⟩ := grounded.splice reach nofun contiguous recordable
  have counted := grounded.holds.splice_cuts reach contiguous ran
  obtain ⟨core₂, synced, _⟩ := grounded₁.sync
  have kept := sync_cuts core₁
  rw [synced] at kept
  rw [← counted, ← kept, RaftCore.store, Fallible.bind_ok ran, Fallible.bind_ok synced,
    Fallible.modify_bind, adoptCommit_eq]
  rfl

end RaftCore

/-- A leader in its term, and the requests it has built. -/
structure Leadership (W : Type) where
  core : RaftCore W
  sent : List AppendEntriesArgs

/-- A request that shows a part of the log `h`. -/
structure Built (h : List LogEntry) (args : AppendEntriesArgs) : Prop where
  within : args.lastSent ≤ h.length
  entries : args.entries = (h.take args.lastSent).drop args.prevLogIndex
  prev : args.prevLogTerm = Consensus.termAt h args.prevLogIndex

theorem Built.longer {h h' : List LogEntry} {args : AppendEntriesArgs} (built : Built h args)
    (longer : h <+: h') : Built h' args := by
  refine ⟨built.within.trans longer.length_le, ?_, ?_⟩
  · rw [built.entries, Consensus.prefix_take longer built.within]
  · rw [built.prev, Consensus.prefix_termAt longer ((Nat.le_add_right _ _).trans built.within)]

theorem Built.contiguous {h : List LogEntry} {args : AppendEntriesArgs} (built : Built h args)
    (indexed : Indexed h) : args.Contiguous := by
  intro j e found
  rw [built.entries] at found
  exact (indexed.shorter (List.take_prefix _ _)).drop _ j e found

theorem RaftCore.Holds.built {W : Type} {core : RaftCore W} {h : List LogEntry} {peer i : Nat}
    (holds : core.Holds h) (next : (core.nextIndex peer).getD (core.lastLogIndex + 1) = i)
    (above : core.snapshot.lastIncludedIndex < i) (within : i ≤ h.length + 1) :
    Built h (core.buildAppendEntries peer) ∧
      (core.buildAppendEntries peer).prevLogIndex = i - 1 ∧
      (core.buildAppendEntries peer).lastSent = h.length := by
  have entries := holds.entriesFrom above
  have prev := holds.termAt (i := i - 1) (by omega) (by omega)
  have covers : (core.buildAppendEntries peer).lastSent = h.length := by
    simp only [AppendEntriesArgs.lastSent, buildAppendEntries, next, entries, List.length_drop]
    omega
  refine ⟨⟨covers.le, ?_, ?_⟩, ?_, covers⟩
  · rw [covers, List.take_length]
    simp only [buildAppendEntries, next, entries]
  · simp only [buildAppendEntries, next, prev, Option.getD_some]
  · simp only [buildAppendEntries, next]

namespace Leadership
open RaftCore
variable {W : Type} [WalOps W] [Bincode] {s s' : Leadership W} {h : List LogEntry}

/-- What a leader does in its term: append a command, build a request, and take a reply
to one of its requests. -/
inductive Move where
  | command (command : Command)
  | build (peer : Nat)
  | reply (peer : Nat) (args : AppendEntriesArgs) (reply : AppendEntriesReply)

def step (s : Leadership W) : Move → Option (Leadership W)
  | .command command => some { s with core := (appendCommand command s.core).2 }
  | .build peer => some { s with sent := s.core.buildAppendEntries peer :: s.sent }
  | .reply peer args reply =>
    if args ∈ s.sent then
      some { s with core := s.core.onAppendEntriesReply peer args.lastSent reply }
    else none

/-- The leader's log is `h`, and every request shows a part of it. -/
structure Leads (s : Leadership W) (h : List LogEntry) : Prop where
  holds : s.core.Holds h
  plain : s.core.snapshot.lastIncludedIndex = 0
  next : ∀ peer i, s.core.nextIndex peer = some i → 1 ≤ i ∧ i ≤ h.length + 1
  built : ∀ args ∈ s.sent, Built h args

omit [WalOps W] [Bincode] in
theorem Leads.elected {core : RaftCore W} (holds : core.Holds h)
    (plain : core.snapshot.lastIncludedIndex = 0) : Leads ⟨core.becomeLeader, []⟩ h := by
  refine ⟨holds.congr rfl rfl, plain, fun peer i found => ?_, nofun⟩
  simp only [becomeLeader, holds.lastLogIndex, Option.ite_none_right_eq_some,
    Option.some.injEq] at found
  omega

omit [WalOps W] [Bincode] in
theorem Leads.reply (leads : s.Leads h) {peer : Nat} {args : AppendEntriesArgs}
    (sent : args ∈ s.sent) (reply : AppendEntriesReply) :
    Leads { s with core := s.core.onAppendEntriesReply peer args.lastSent reply } h := by
  have within := (leads.built args sent).within
  have moved {i : Nat} (low : 1 ≤ i) (high : i ≤ h.length + 1) (p j : Nat)
      (found : Function.update s.core.nextIndex peer (some i) p = some j) :
      1 ≤ j ∧ j ≤ h.length + 1 := by
    simp only [Function.update_apply] at found
    split_ifs at found with same
    · cases found
      exact ⟨low, high⟩
    · exact leads.next p j found
  by_cases leading : s.core.role = .leader
  · cases success : reply.success with
    | true =>
      rw [onAppendEntriesReply_taken leading success]
      exact ⟨leads.holds.congr rfl rfl, leads.plain,
        moved (Nat.le_add_left _ _) (Nat.succ_le_succ within), leads.built⟩
    | false =>
      have current : (s.core.nextIndex peer).getD 1 ≤ h.length + 1 := by
        cases known : s.core.nextIndex peer with
        | none => simp
        | some j => exact (leads.next peer j known).2
      obtain ⟨i, low, high, same⟩ := onAppendEntriesReply_backs leading success
      rw [same]
      exact ⟨leads.holds.congr rfl rfl, leads.plain, moved low (by omega), leads.built⟩
  · rw [onAppendEntriesReply, if_pos leading]
    exact leads

omit [WalOps W] [Bincode] in
theorem Leads.build (leads : s.Leads h) (peer : Nat) : Built h (s.core.buildAppendEntries peer) := by
  have bounds : 1 ≤ (s.core.nextIndex peer).getD (s.core.lastLogIndex + 1) ∧
      (s.core.nextIndex peer).getD (s.core.lastLogIndex + 1) ≤ h.length + 1 := by
    rw [leads.holds.lastLogIndex]
    cases known : s.core.nextIndex peer with
    | none => simp
    | some j => exact leads.next peer j known
  exact (leads.holds.built rfl (by rw [leads.plain]; exact bounds.1) bounds.2).1

theorem Leads.step (leads : s.Leads h) {move : Move} (stepped : s.step move = some s') :
    ∃ h', s'.Leads h' := by
  cases move with
  | command command =>
    cases stepped
    obtain ⟨only, entries⟩ := appendCommand_entries command s.core
    have snapshot : (appendCommand command s.core).2.snapshot = s.core.snapshot := by rw [only]
    have next : (appendCommand command s.core).2.nextIndex = s.core.nextIndex := by rw [only]
    have plain : (appendCommand command s.core).2.snapshot.lastIncludedIndex = 0 := by
      rw [snapshot, leads.plain]
    rcases entries with same | grown
    · exact ⟨h, leads.holds.congr snapshot same, plain, next ▸ leads.next, leads.built⟩
    · have index := leads.holds.lastLogIndex
      refine ⟨_, leads.holds.concat (congrArg (· + 1) index) snapshot grown, plain,
        fun peer i found => ?_, fun args sent => (leads.built args sent).longer (List.prefix_append _ _)⟩
      have bounds := leads.next peer i (next ▸ found)
      rw [List.length_append]
      omega
  | build peer =>
    cases stepped
    refine ⟨h, leads.holds, leads.plain, leads.next, fun args sent => ?_⟩
    rcases List.mem_cons.mp sent with rfl | old
    · exact leads.build peer
    · exact leads.built args old
  | reply peer args reply =>
    simp only [Leadership.step, Option.ite_none_right_eq_some] at stepped
    obtain ⟨sent, stepped⟩ := stepped
    cases stepped
    exact ⟨h, leads.reply sent reply⟩

theorem led_in_term {core : RaftCore W} (holds : core.Holds h)
    (plain : core.snapshot.lastIncludedIndex = 0)
    (led : Reaches step (fun _ _ => True) ⟨core.becomeLeader, []⟩ s) : s.Leads s.core.entries := by
  obtain ⟨h', leads⟩ := led.invariant (P := fun s => ∃ h, s.Leads h) ⟨h, .elected holds plain⟩
    fun ⟨_, before⟩ _ stepped => before.step stepped
  have same : s.core.entries = h' := by
    rw [leads.holds.entries, leads.plain, List.drop_zero]
  rw [same]
  exact leads

end Leadership

/-- A follower, and the requests to which it has replied with success. -/
structure Delivery (W : Type) where
  core : RaftCore (Metered W)
  accepted : List AppendEntriesArgs

namespace Delivery
open RaftCore
variable {W : Type} [WalOps W] [Bincode] [Journal W] {f : Delivery W} {h l : List LogEntry}
  {clock : Clock} {args : AppendEntriesArgs}

def deliver (f : Delivery W) (clock : Clock) (args : AppendEntriesArgs) : Delivery W :=
  match handleAppendEntries clock args f.core with
  | (.ok reply, core) =>
    { core, accepted := if reply.success then args :: f.accepted else f.accepted }
  | (.error _, core) => { f with core }

def deliverAll (f : Delivery W) (deliveries : List (Clock × AppendEntriesArgs)) : Delivery W :=
  deliveries.foldl (fun f delivery => f.deliver delivery.1 delivery.2) f

/-- A follower without snapshot whose log matches the leader's. -/
structure Follows (core : RaftCore (Metered W)) (h l : List LogEntry) : Prop where
  grounded : core.Grounded l false
  running : core.Running
  plain : core.snapshot.lastIncludedIndex = 0
  matching : Consensus.Matching l h

theorem Follows.handle {core : RaftCore (Metered W)} (follows : Follows core h l)
    (indexed : Indexed h) (recordable : ∀ e ∈ h, Recordable W e) (built : Built h args)
    (clock : Clock) :
    ∃ reply core', handleAppendEntries clock args core = (.ok reply, core') ∧
      (reply.success = false ∧ Follows core' h l ∧ core'.log.cuts = core.log.cuts ∨
        reply.success = true ∧ args.prevLogIndex ≤ l.length ∧
          Follows core' h (Consensus.merge l (h.take args.lastSent)) ∧
          core'.log.cuts = core.log.cuts + Consensus.cuts 0 l args.prevLogIndex args.entries) := by
  rw [follows.running.handleAppendEntries]
  split_ifs with stale
  · exact ⟨_, _, rfl, .inl ⟨rfl, follows, rfl⟩⟩
  · have same := recognised_logPart args clock core
    have running := (follows.running.recognised args).congr (armed_ballot clock _)
    revert same running
    generalize (core.recognised args).armed clock = seen
    intro same running
    simp only [logPart, Prod.mk.injEq] at same
    obtain ⟨log, entries, snapshot, _, _⟩ := same
    have plain : seen.snapshot.lastIncludedIndex = 0 := by rw [snapshot, follows.plain]
    have grounded := follows.grounded.congr snapshot entries log
    have cuts : seen.log.cuts = core.log.cuts := by rw [log]
    rw [matchAndStore_run]
    split_ifs with ahead differs
    · exact ⟨_, seen, rfl, .inl ⟨rfl, ⟨grounded, running, plain, follows.matching⟩, cuts⟩⟩
    · exact ⟨_, seen, rfl, .inl ⟨rfl, ⟨grounded, running, plain, follows.matching⟩, cuts⟩⟩
    · rw [grounded.holds.lastLogIndex] at ahead
      have reach := Nat.le_of_not_lt ahead
      have shown : args.prevLogIndex ≤ h.length := (Nat.le_add_right _ _).trans built.within
      have agree : l.take args.prevLogIndex = h.take args.prevLogIndex := by
        rw [grounded.holds.termAt (by omega) reach, built.prev] at differs
        exact follows.matching.take_eq reach shown (by simpa using differs)
      have contiguous := built.contiguous indexed
      have recordable' : ∀ e ∈ args.entries, Recordable (Metered W) e := by
        intro e member
        rw [built.entries] at member
        exact recordable e (List.mem_of_mem_take (List.mem_of_mem_drop member))
      have spliced : Consensus.merge l (h.take args.lastSent) =
          Consensus.splice seen.snapshot.lastIncludedIndex l args.prevLogIndex args.entries := by
        rw [built.entries, plain]
        have covered : l.take 0 <+: h := List.nil_prefix
        exact (Consensus.splice_merge follows.matching agree covered reach
          (Nat.le_add_right _ _) built.within (Nat.zero_le _)).symm
      have counted := grounded.store_cuts reach contiguous recordable'
      obtain ⟨core', stored, only, grounded', _⟩ :=
        grounded.store reach contiguous recordable' spliced
      rw [stored, plain, cuts] at counted
      refine ⟨_, core', stored, .inr ⟨rfl, reach, ⟨grounded', running.congr only.ballot, ?_, ?_⟩,
        counted⟩⟩
      · rw [only]
        exact plain
      · exact follows.matching.merge _

/-- What the follower has accepted is in its log, and once it has cut its log off that is
a part of the leader's. -/
structure Tracks (f : Delivery W) (h l : List LogEntry) (start : Nat) : Prop where
  follows : Follows f.core h l
  accepted : ∀ args ∈ f.accepted, Built h args ∧ h.take args.lastSent <+: l
  cuts : f.core.log.cuts ≤ start ∨ f.core.log.cuts ≤ start + 1 ∧ l <+: h

omit [WalOps W] [Bincode] [Journal W] in
theorem no_cuts (built : Built h args) (reach : args.prevLogIndex ≤ l.length)
    (comparable : l <+: h ∨ h.take args.lastSent <+: l) :
    Consensus.cuts 0 l args.prevLogIndex args.entries = 0 := by
  refine Consensus.cuts_agreeing reach (Nat.zero_le _) fun j own e here found => ?_
  rw [built.entries, List.getElem?_drop] at found
  have same : some own = some e := by
    rcases comparable with shorter | longer
    · rw [← Consensus.prefix_getElem? shorter here,
        Consensus.prefix_getElem? (List.take_prefix _ _) found]
    · rw [← here, Consensus.prefix_getElem? longer found]
  rw [Option.some.inj same]

theorem Tracks.deliver {start : Nat} (tracks : f.Tracks h l start) (indexed : Indexed h)
    (recordable : ∀ e ∈ h, Recordable W e) (built : Built h args) (clock : Clock) :
    ∃ l', (f.deliver clock args).Tracks h l' start := by
  obtain ⟨reply, core, handled, outcome⟩ := tracks.follows.handle indexed recordable built clock
  rw [Delivery.deliver, handled]
  rcases outcome with ⟨refused, follows, cuts⟩ | ⟨success, reach, follows, cuts⟩
  · refine ⟨l, follows, ?_, ?_⟩
    · simp only [refused]
      exact tracks.accepted
    · rw [cuts]
      exact tracks.cuts
  · refine ⟨_, follows, ?_, ?_⟩
    · simp only [success, if_true]
      intro x member
      rcases List.mem_cons.mp member with rfl | old
      · exact ⟨built, Consensus.shown_prefix_merge _ _⟩
      · obtain ⟨built', inside⟩ := tracks.accepted x old
        exact ⟨built', Consensus.common_prefix_merge inside (List.take_prefix _ _) _⟩
    · have once := Consensus.cuts_le_one args.entries reach (Nat.zero_le l.length)
      rcases Consensus.merge_cases l (h.take args.lastSent) with ⟨kept, longer⟩ | ⟨cut, _⟩
      · rw [kept, cuts, no_cuts built reach (.inr longer)]
        exact tracks.cuts
      · rw [cut]
        refine .inr ⟨?_, List.take_prefix _ _⟩
        show core.log.cuts ≤ start + 1
        rcases tracks.cuts with before | ⟨before, shorter⟩
        · omega
        · rw [cuts, no_cuts built reach (.inl shorter)]
          exact before

theorem Tracks.deliverAll {start : Nat} (tracks : f.Tracks h l start) (indexed : Indexed h)
    (recordable : ∀ e ∈ h, Recordable W e) {deliveries : List (Clock × AppendEntriesArgs)}
    (built : ∀ delivery ∈ deliveries, Built h delivery.2) :
    ∃ l', (f.deliverAll deliveries).Tracks h l' start := by
  induction deliveries generalizing f l with
  | nil => exact ⟨l, tracks⟩
  | cons delivery deliveries ih =>
    obtain ⟨l', tracks'⟩ := tracks.deliver indexed recordable (built delivery List.mem_cons_self)
      delivery.1
    exact ih tracks' fun other member => built other (List.mem_cons_of_mem _ member)

theorem Follows.log {core : RaftCore (Metered W)} (follows : Follows core h l) :
    core.entries = l := by
  rw [follows.grounded.holds.entries, follows.plain, List.drop_zero]

theorem Follows.again {core : RaftCore (Metered W)} (follows : Follows core h l)
    (indexed : Indexed h) (recordable : ∀ e ∈ h, Recordable W e) (built : Built h args)
    (inside : h.take args.lastSent <+: l) (clock : Clock) :
    (handleAppendEntries clock args core).2.entries = core.entries := by
  obtain ⟨reply, core', handled, outcome⟩ := follows.handle indexed recordable built clock
  rw [handled]
  rcases outcome with ⟨_, follows', _⟩ | ⟨_, _, follows', _⟩
  · exact follows'.log.trans follows.log.symm
  · rw [Consensus.merge_kept inside] at follows'
    exact follows'.log.trans follows.log.symm

/-- However the requests of one leader arrive, the log keeps what was acknowledged, a
request that was accepted before changes nothing, and the log is cut off at most once. -/
theorem acknowledged_stays {V : Type} [WalOps V] {leader : RaftCore V} {s : Leadership V}
    (holds : leader.Holds h) (plain : leader.snapshot.lastIncludedIndex = 0)
    (led : Reaches Leadership.step (fun _ _ => True) ⟨leader.becomeLeader, []⟩ s)
    (recordable : ∀ e ∈ s.core.entries, Recordable W e) {follower : RaftCore (Metered W)}
    (follows : Follows follower s.core.entries l) {deliveries : List (Clock × AppendEntriesArgs)}
    (sent : ∀ delivery ∈ deliveries, delivery.2 ∈ s.sent) :
    let f := deliverAll ⟨follower, []⟩ deliveries
    (∀ args ∈ f.accepted, args.lastSent ≤ s.core.entries.length ∧
      f.core.entries.take args.lastSent = s.core.entries.take args.lastSent) ∧
    (∀ args ∈ f.accepted, ∀ clock,
      (handleAppendEntries clock args f.core).2.entries = f.core.entries) ∧
    f.core.log.cuts ≤ follower.log.cuts + 1 := by
  intro f
  have leads := Leadership.led_in_term holds plain led
  have start : Tracks ⟨follower, []⟩ s.core.entries l follower.log.cuts :=
    ⟨follows, nofun, .inl le_rfl⟩
  obtain ⟨l', tracks⟩ := start.deliverAll leads.holds.indexed recordable
    fun delivery member => leads.built _ (sent delivery member)
  refine ⟨fun args member => ?_, fun args member clock => ?_, ?_⟩
  · obtain ⟨built, inside⟩ := tracks.accepted args member
    have length : args.lastSent ≤ (s.core.entries.take args.lastSent).length := by
      rw [List.length_take]
      exact Nat.le_min.mpr ⟨le_rfl, built.within⟩
    refine ⟨built.within, ?_⟩
    rw [tracks.follows.log, Consensus.prefix_take inside length, List.take_take, Nat.min_self]
  · obtain ⟨built, inside⟩ := tracks.accepted args member
    exact tracks.follows.again leads.holds.indexed recordable built inside clock
  · rcases tracks.cuts with none | ⟨once, _⟩
    · exact none.trans (Nat.le_succ _)
    · exact once

end Delivery

namespace Delivery
open RaftCore

/-- Node 1 at the start of its term 2. -/
def leader : RaftCore FlatLog :=
  { assemble ⟨0, 0⟩ ((Config.new 1).withPeers [⟨2, ""⟩]) HardFile.absent default FlatLog.empty []
    with hard := ⟨2, some 1⟩ }

/-- Node 2 with an entry of term 1 that the leader does not have. -/
def behind : RaftCore (Metered FlatLog) :=
  assemble ⟨0, 0⟩ ((Config.new 2).withPeers [⟨1, ""⟩]) HardFile.absent default
    ⟨⟨1, [((Bincode.serialize ⟨1, 1, .put [9] [9]⟩).toOption).getD []]⟩, 0⟩ [⟨1, 1, .put [9] [9]⟩]

/-- A request with the first entry of the leader, and one with both. -/
def early : AppendEntriesArgs := ⟨2, 1, 0, 0, [⟨2, 1, .noop⟩], 0⟩
def late : AppendEntriesArgs := ⟨2, 1, 0, 0, [⟨2, 1, .noop⟩, ⟨2, 2, .put [1] [1]⟩], 0⟩

theorem behind_follows : Follows behind [⟨2, 1, .noop⟩, ⟨2, 2, .put [1] [1]⟩]
    [⟨1, 1, .put [9] [9]⟩] := by
  refine ⟨⟨by decide +kernel, behind.log.log, rfl, by decide +kernel, by decide +kernel⟩,
    by decide +kernel, rfl, fun i a b own other same => ?_⟩
  match i, own, other with
  | 0, rfl, rfl => cases same

/-- The later request comes first and cuts the log off; the earlier one and a repetition
change nothing. -/
theorem acknowledged_stays_reordered : ∃ s : Leadership FlatLog,
    Reaches Leadership.step (fun _ _ => True) ⟨leader.becomeLeader, []⟩ s ∧ s.sent = [late, early] ∧
    let f := deliverAll ⟨behind, []⟩ [(⟨0, 0⟩, late), (⟨0, 0⟩, early), (⟨0, 0⟩, late)]
    f.accepted = [late, early, late] ∧ f.core.log.cuts = 1 ∧
    (∀ args ∈ f.accepted, args.lastSent ≤ s.core.entries.length ∧
      f.core.entries.take args.lastSent = s.core.entries.take args.lastSent) := by
  have ran : ((execute Leadership.step (fun _ _ => True) (⟨leader.becomeLeader, []⟩ : Leadership FlatLog)
      [.command .noop, .build 2, .command (.put [1] [1]), .build 2]).any
      fun s => decide (s.sent = [late, early] ∧
        s.core.entries = [⟨2, 1, .noop⟩, ⟨2, 2, .put [1] [1]⟩])) = true := by
    decide +kernel
  obtain ⟨s, led, shown⟩ := execute_shows ran
  obtain ⟨sent, entries⟩ := of_decide_eq_true shown
  have recordable : ∀ e ∈ s.core.entries, Recordable FlatLog e := by
    rw [entries]
    simp only [List.mem_cons, List.not_mem_nil, or_false, forall_eq_or_imp, forall_eq]
    exact ⟨⟨_, rfl, trivial⟩, ⟨_, rfl, trivial⟩⟩
  refine ⟨s, led, sent, by decide +kernel, by decide +kernel, ?_⟩
  exact (acknowledged_stays (by decide +kernel : leader.Holds []) rfl led recordable
    (entries ▸ behind_follows) (by rw [sent]; simp)).1

end Delivery
end WalKv
