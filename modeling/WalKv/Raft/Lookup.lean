import WalKv.Raft.Replication
import WalKv.Consensus.Prefix

/-! A core stands for one log: the entries its snapshot covers, which it no
longer holds, followed by the entries in memory. Every lookup of the core is a
lookup in that log. -/
namespace WalKv
open Consensus (lastTerm)

instance : Consensus.Stamped LogEntry := ⟨LogEntry.term⟩

/-- The entry at position `i` carries index `i + 1`. -/
def Indexed (l : List LogEntry) : Prop := ∀ i e, l[i]? = some e → e.index = i + 1

instance (l : List LogEntry) : Decidable (Indexed l) :=
  decidable_of_iff (∀ i (h : i < l.length), l[i].index = i + 1)
    ⟨fun all i _ found => by
      obtain ⟨bound, rfl⟩ := List.getElem?_eq_some_iff.mp found
      exact all i bound,
    fun indexed i bound => indexed i l[i] (List.getElem?_eq_getElem bound)⟩

instance (entries : List LogEntry) (p : Nat) :
    Decidable (∀ j e, entries[j]? = some e → e.index = p + j + 1) :=
  decidable_of_iff (∀ j (bound : j < entries.length), entries[j].index = p + j + 1)
    ⟨fun all j _ found => by
      obtain ⟨bound, rfl⟩ := List.getElem?_eq_some_iff.mp found
      exact all j bound,
    fun contiguous j bound => contiguous j _ (List.getElem?_eq_getElem bound)⟩

/-- Entries that follow each other still do so without the first. -/
theorem consecutive_tail {e : LogEntry} {es : List LogEntry} {p : Nat}
    (contiguous : ∀ j x, (e :: es)[j]? = some x → x.index = p + j + 1) :
    e.index = p + 1 ∧ ∀ j x, es[j]? = some x → x.index = p + 1 + j + 1 := by
  refine ⟨contiguous 0 e rfl, fun j x found => ?_⟩
  have index := contiguous (j + 1) x found
  omega

/-- Of entries that follow each other, those below an index are the first ones. -/
theorem filter_below {es : List LogEntry} {p k : Nat}
    (contiguous : ∀ j e, es[j]? = some e → e.index = p + j + 1) :
    es.filter (·.index < k) = es.take (k - (p + 1)) := by
  induction es generalizing p with
  | nil => rw [List.take_nil]; rfl
  | cons e es ih =>
    obtain ⟨index, rest⟩ := consecutive_tail contiguous
    rcases Nat.lt_or_ge (p + 1) k with below | above
    · have width : k - (p + 1) = k - (p + 1 + 1) + 1 := by omega
      rw [List.filter_cons_of_pos (by simpa [index] using below), ih rest, width, List.take_succ_cons]
    · have none : es.filter (·.index < k) = [] := by
        rw [ih rest, Nat.sub_eq_zero_of_le (above.trans (Nat.le_succ _)), List.take_zero]
      rw [List.filter_cons_of_neg (by simpa [index] using above), none,
        Nat.sub_eq_zero_of_le above, List.take_zero]

/-- Those above an index are the last ones. -/
theorem filter_above {es : List LogEntry} {p k : Nat}
    (contiguous : ∀ j e, es[j]? = some e → e.index = p + j + 1) :
    es.filter (k < ·.index) = es.drop (k - p) := by
  induction es generalizing p with
  | nil => rw [List.drop_nil]; rfl
  | cons e es ih =>
    obtain ⟨index, rest⟩ := consecutive_tail contiguous
    rcases Nat.lt_or_ge p k with below | above
    · have width : k - p = k - (p + 1) + 1 := by omega
      rw [List.filter_cons_of_neg (by simpa [index] using Nat.succ_le_of_lt below), ih rest, width,
        List.drop_succ_cons]
    · rw [List.filter_cons_of_pos (by simpa [index] using Nat.lt_succ_of_le above), ih rest,
        Nat.sub_eq_zero_of_le above, Nat.sub_eq_zero_of_le (above.trans (Nat.le_succ _)),
        List.drop_zero, List.drop_zero]

theorem Indexed.nil : Indexed [] := fun _ _ found => by simp at found

theorem Indexed.shorter {l l' : List LogEntry} (indexed : Indexed l) (shorter : l' <+: l) :
    Indexed l' :=
  fun i e found => indexed i e (Consensus.prefix_getElem? shorter found)

/-- Without its first `p` entries the list follows position `p`. -/
theorem Indexed.drop {l : List LogEntry} (indexed : Indexed l) (p j : Nat) (e : LogEntry)
    (found : (l.drop p)[j]? = some e) : e.index = p + j + 1 := by
  rw [List.getElem?_drop] at found
  exact indexed (p + j) e found

theorem Indexed.concat {l : List LogEntry} {e : LogEntry} (indexed : Indexed l)
    (next : e.index = l.length + 1) : Indexed (l ++ [e]) := by
  intro i x found
  by_cases old : i < l.length
  · rw [List.getElem?_append_left old] at found
    exact indexed i x found
  · rw [List.getElem?_append_right (by omega)] at found
    obtain ⟨bound, same⟩ := List.getElem?_eq_some_iff.mp found
    simp only [List.length_singleton] at bound
    simp only [List.getElem_singleton] at same
    have last : i = l.length := by omega
    rw [← same, next, last]

theorem Indexed.le_of_mem_take {l : List LogEntry} {e : LogEntry} {k : Nat} (indexed : Indexed l)
    (member : e ∈ l.take k) : e.index ≤ k := by
  obtain ⟨i, found⟩ := List.getElem?_of_mem member
  rw [List.getElem?_take, Option.ite_none_right_eq_some] at found
  exact (indexed i e found.2).trans_le found.1

theorem Indexed.lt_of_mem_drop {l : List LogEntry} {e : LogEntry} {k : Nat} (indexed : Indexed l)
    (member : e ∈ l.drop k) : k < e.index := by
  obtain ⟨i, found⟩ := List.getElem?_of_mem member
  have index := indexed.drop k i e found
  omega

theorem Indexed.filter_lt {l : List LogEntry} (indexed : Indexed l) (s k : Nat) :
    (l.drop s).filter (fun e => decide (e.index < k + 1)) = (l.take k).drop s := by
  have low : ((l.take k).drop s).filter (fun e => decide (e.index < k + 1)) = (l.take k).drop s :=
    List.filter_eq_self.mpr fun e member => by
      simpa [Nat.lt_succ_iff] using indexed.le_of_mem_take (List.mem_of_mem_drop member)
  have high (n : Nat) : ((l.drop k).drop n).filter (fun e => decide (e.index < k + 1)) = [] :=
    List.filter_eq_nil_iff.mpr fun e member => by
      simpa [Nat.succ_le_iff] using indexed.lt_of_mem_drop (List.mem_of_mem_drop member)
  conv_lhs => rw [← List.take_append_drop k l, List.drop_append, List.filter_append]
  rw [low, high, List.append_nil]

theorem Indexed.filter_gt {l : List LogEntry} (indexed : Indexed l) {s k : Nat} (above : s ≤ k) :
    (l.drop s).filter (fun e => decide (k < e.index)) = l.drop k := by
  have low : ((l.take k).drop s).filter (fun e => decide (k < e.index)) = [] :=
    List.filter_eq_nil_iff.mpr fun e member => by
      simpa using indexed.le_of_mem_take (List.mem_of_mem_drop member)
  have high : (l.drop k).filter (fun e => decide (k < e.index)) = l.drop k :=
    List.filter_eq_self.mpr fun e member => by simpa using indexed.lt_of_mem_drop member
  have rest : (l.drop k).drop (s - (l.take k).length) = l.drop k := by
    rcases Nat.le_total k l.length with inside | beyond
    · rw [List.length_take, Nat.min_eq_left inside, Nat.sub_eq_zero_of_le above, List.drop_zero]
    · rw [List.drop_eq_nil_of_le beyond, List.drop_nil]
  conv_lhs => rw [← List.take_append_drop k l, List.drop_append, List.filter_append]
  rw [low, rest, high, List.nil_append]

namespace RaftCore
variable {W : Type} {core : RaftCore W} {l : List LogEntry} {i : Nat}

/-- Lookups read the snapshot and the entries only. -/
theorem termAt_congr {core' : RaftCore W} (snapshot : core'.snapshot = core.snapshot)
    (entries : core'.entries = core.entries) : core'.termAt i = core.termAt i := by
  rw [RaftCore.termAt, RaftCore.termAt, baseIndex, baseIndex, snapshot, entries]

/-- The entries follow the snapshot without a gap. -/
def Contiguous (core : RaftCore W) : Prop :=
  ∀ i e, core.entries[i]? = some e → e.index = core.snapshot.lastIncludedIndex + i + 1

instance : Decidable core.Contiguous :=
  inferInstanceAs (Decidable (∀ i e, core.entries[i]? = some e →
    e.index = core.snapshot.lastIncludedIndex + i + 1))

theorem Contiguous.lastLogIndex (contiguous : core.Contiguous) :
    core.lastLogIndex = core.snapshot.lastIncludedIndex + core.entries.length := by
  rw [RaftCore.lastLogIndex]
  rcases empty : core.entries.getLast? with _ | e
  · rw [List.getLast?_eq_none_iff.mp empty]
    rfl
  · rw [List.getLast?_eq_getElem?] at empty
    have index := contiguous _ e empty
    have bound := (List.getElem?_eq_some_iff.mp empty).1
    simp only
    omega

/-- Above the snapshot the term at an index is that of the entry there. -/
theorem termAt_entry (above : core.snapshot.lastIncludedIndex < i) :
    core.termAt i = (core.entryAt i).map LogEntry.term := by
  have outside : ¬ i < core.baseIndex := by
    rw [baseIndex]
    omega
  rw [RaftCore.termAt, RaftCore.entryAt, if_neg (by omega), if_neg outside, if_neg outside]

/-- The core stands for the log `l`. -/
structure Holds (core : RaftCore W) (l : List LogEntry) : Prop where
  compacted : core.snapshot.lastIncludedIndex ≤ l.length
  entries : core.entries = l.drop core.snapshot.lastIncludedIndex
  indexed : Indexed l
  based : core.snapshot.lastIncludedTerm = Consensus.termAt l core.snapshot.lastIncludedIndex

instance : Decidable (core.Holds l) :=
  decidable_of_iff (_ ∧ _ ∧ _ ∧ _)
    ⟨fun ⟨compacted, entries, indexed, based⟩ => ⟨compacted, entries, indexed, based⟩,
    fun holds => ⟨holds.compacted, holds.entries, holds.indexed, holds.based⟩⟩

theorem Holds.snapshot (holds : core.Holds l) : core.snapshot =
    ⟨core.snapshot.lastIncludedIndex, Consensus.termAt l core.snapshot.lastIncludedIndex⟩ := by
  rw [← holds.based]

/-- A core with a contiguous log stands for some log; what the snapshot covers is not looked
at again. -/
theorem Contiguous.holds (contiguous : core.Contiguous)
    (blank : core.snapshot.lastIncludedIndex = 0 → core.snapshot.lastIncludedTerm = 0) :
    ∃ l, core.Holds l := by
  let covered : List LogEntry := (List.range core.snapshot.lastIncludedIndex).map fun i =>
    ⟨core.snapshot.lastIncludedTerm, i + 1, .noop⟩
  have length : covered.length = core.snapshot.lastIncludedIndex := by simp [covered]
  refine ⟨covered ++ core.entries, by simp [length], ?_, fun i e found => ?_, ?_⟩
  · rw [← length, List.drop_left]
  · rcases Nat.lt_or_ge i covered.length with inside | beyond
    · rw [List.getElem?_append_left inside, List.getElem?_map,
        List.getElem?_range (length ▸ inside)] at found
      cases found
      rfl
    · rw [List.getElem?_append_right beyond] at found
      have index := contiguous _ e found
      omega
  · rcases index : core.snapshot.lastIncludedIndex with _ | i
    · exact blank index
    · have here : covered[i]? = some ⟨core.snapshot.lastIncludedTerm, i + 1, .noop⟩ := by
        simp [covered, index]
      rw [Consensus.termAt_succ, List.getElem?_append_left (by omega), here]
      rfl

namespace Holds

theorem contiguous (holds : core.Holds l) : core.Contiguous := by
  intro i e found
  rw [holds.entries] at found
  exact holds.indexed.drop _ i e found

theorem last_entry (holds : core.Holds l) :
    core.entries.getLast? = if core.snapshot.lastIncludedIndex = l.length then none
      else l.getLast? := by
  rw [holds.entries, List.getLast?_drop]
  have := holds.compacted
  simp only [show l.length ≤ core.snapshot.lastIncludedIndex ↔
    core.snapshot.lastIncludedIndex = l.length by omega]

theorem lastLogIndex (holds : core.Holds l) : core.lastLogIndex = l.length := by
  rw [RaftCore.lastLogIndex, holds.last_entry]
  split_ifs with whole
  · exact whole
  · have bound := holds.compacted
    rw [List.getLast?_eq_getElem?, List.getElem?_eq_getElem (by omega)]
    have indexed := holds.indexed (l.length - 1) l[l.length - 1]
      (List.getElem?_eq_getElem (by omega))
    show l[l.length - 1].index = l.length
    omega

theorem lastLogTerm (holds : core.Holds l) : core.lastLogTerm = lastTerm l := by
  rw [RaftCore.lastLogTerm, holds.last_entry]
  split_ifs with whole
  · rw [lastTerm, ← whole]
    exact holds.based
  · have bound := holds.compacted
    have last : l[l.length - 1]? = some l[l.length - 1] := List.getElem?_eq_getElem (by omega)
    rw [List.getLast?_eq_getElem?, last]
    simp only [lastTerm, Consensus.termAt, if_neg (show l.length ≠ 0 by omega), last]
    rfl

theorem entryAt (holds : core.Holds l) (above : core.snapshot.lastIncludedIndex < i) :
    core.entryAt i = l[i - 1]? := by
  have outside : ¬ i < core.baseIndex := by rw [baseIndex]; omega
  rw [RaftCore.entryAt, if_neg outside, holds.entries, List.getElem?_drop, baseIndex]
  congr 1
  omega

theorem termAt (holds : core.Holds l) (above : core.snapshot.lastIncludedIndex ≤ i)
    (within : i ≤ l.length) : core.termAt i = some (Consensus.termAt l i) := by
  unfold RaftCore.termAt
  split_ifs with based below
  · rw [based]
    exact congrArg some holds.based
  · rw [baseIndex] at below
    omega
  · have position : core.snapshot.lastIncludedIndex + (i - core.baseIndex) = i - 1 := by
      rw [baseIndex]; omega
    have found : l[i - 1]? = some l[i - 1] := List.getElem?_eq_getElem (by omega)
    rw [holds.entries, List.getElem?_drop, position, found]
    simp only [Consensus.termAt, if_neg (show i ≠ 0 by omega), found]
    rfl

theorem termAt_above (holds : core.Holds l) (beyond : l.length < i) : core.termAt i = none := by
  have bound := holds.compacted
  unfold RaftCore.termAt
  rw [if_neg (by omega), if_neg (by rw [baseIndex]; omega), holds.entries, List.getElem?_drop,
    List.getElem?_eq_none (by rw [baseIndex]; omega)]
  rfl

theorem termAt_below (core : RaftCore W) (below : i < core.snapshot.lastIncludedIndex) :
    core.termAt i = none := by
  unfold RaftCore.termAt
  rw [if_neg (by omega), if_pos (by rw [baseIndex]; omega)]

theorem entriesFrom (holds : core.Holds l) (above : core.snapshot.lastIncludedIndex < i) :
    core.entriesFrom i = l.drop (i - 1) := by
  have outside : ¬ i < core.baseIndex := by rw [baseIndex]; omega
  rw [RaftCore.entriesFrom, if_neg outside, holds.entries, List.drop_drop, baseIndex]
  congr 1
  omega

/-- Only the snapshot and the entries decide which log a core stands for. -/
theorem congr {core' : RaftCore W} (holds : core.Holds l) (snapshot : core'.snapshot = core.snapshot)
    (entries : core'.entries = core.entries) : core'.Holds l :=
  ⟨snapshot ▸ holds.compacted, by rw [entries, snapshot, holds.entries], holds.indexed,
    snapshot ▸ holds.based⟩

theorem concat {core' : RaftCore W} {e : LogEntry} (holds : core.Holds l)
    (next : e.index = l.length + 1) (snapshot : core'.snapshot = core.snapshot)
    (entries : core'.entries = core.entries ++ [e]) : core'.Holds (l ++ [e]) := by
  have bound := holds.compacted
  refine ⟨?_, ?_, holds.indexed.concat next, ?_⟩
  · rw [snapshot, List.length_append]
    omega
  · rw [entries, snapshot, holds.entries, List.drop_append_of_le_length bound]
  · rw [snapshot, holds.based]
    exact (Consensus.prefix_termAt (List.prefix_append _ _) bound).symm

/-- Entries dropped under a marker that moves along stand for the same log. -/
theorem dropped {core' : RaftCore W} {snapshotMeta : SnapshotMeta} (holds : core.Holds l)
    (above : core.snapshot.lastIncludedIndex ≤ snapshotMeta.lastIncludedIndex)
    (within : snapshotMeta.lastIncludedIndex ≤ l.length)
    (stamp : snapshotMeta.lastIncludedTerm = Consensus.termAt l snapshotMeta.lastIncludedIndex)
    (snapshot : core'.snapshot = snapshotMeta)
    (entries : core'.entries = core.entries.filter (snapshotMeta.lastIncludedIndex < ·.index)) :
    core'.Holds l := by
  subst snapshot
  refine ⟨within, ?_, holds.indexed, stamp⟩
  rw [entries, holds.entries, holds.indexed.filter_gt above]

theorem takeLoop_run (holds : core.Holds l)
    (above : core.snapshot.lastIncludedIndex ≤ core.lastApplied) {k : Nat}
    (within : core.lastApplied + k ≤ l.length) :
    RaftCore.takeLoop k core = ((l.take (core.lastApplied + k)).drop core.lastApplied,
      { core with lastApplied := core.lastApplied + k }) := by
  induction k generalizing core with
  | zero => simp [RaftCore.takeLoop]
  | succ k ih =>
    have bound : core.lastApplied < l.length := by omega
    have found : core.entryAt (core.lastApplied + 1) = some l[core.lastApplied] := by
      rw [holds.entryAt (by omega)]
      exact List.getElem?_eq_getElem bound
    have next : ({ core with lastApplied := core.lastApplied + 1 } : RaftCore W).Holds l :=
      holds.congr rfl rfl
    have step := ih next (by simp only; omega) (by simp only; omega)
    simp only [RaftCore.takeLoop, found, step]
    rw [show core.lastApplied + 1 + k = core.lastApplied + (k + 1) by omega,
      List.drop_eq_getElem_cons (i := core.lastApplied) (by simp; omega), List.getElem_take]

theorem takeCommitted_run (holds : core.Holds l)
    (above : core.snapshot.lastIncludedIndex ≤ core.lastApplied)
    (order : core.lastApplied ≤ core.commitIndex) (within : core.commitIndex ≤ l.length) :
    RaftCore.takeCommitted core = ((l.take core.commitIndex).drop core.lastApplied,
      { core with lastApplied := core.commitIndex }) := by
  rw [RaftCore.takeCommitted, holds.takeLoop_run above (by omega),
    show core.lastApplied + (core.commitIndex - core.lastApplied) = core.commitIndex by omega]

end Holds
end RaftCore
end WalKv
