import WalKv.Raft.FailedPersist
import WalKv.Raft.Splicing
import WalKv.Wal.Lossy

/-! A follower whose disk fails while it stores a request. Its entries and its write-ahead log
stay in step if the log was not to be cut and nothing of the frame that could not be written
has been taken. -/
namespace WalKv

section Records
variable [Bincode] {records : List Bytes} {es : List LogEntry} {i covered : Nat}

omit [Bincode] in
theorem number_filter (reaches : i ≤ covered + 1) (records : List Bytes) :
    (number i records).filter (covered < ·.1) =
      number (covered + 1) (records.drop (covered + 1 - i)) := by
  have below : (number i (records.take (covered + 1 - i))).filter (covered < ·.1) = [] := by
    refine List.filter_eq_nil_iff.mpr fun record member => ?_
    have inside := (mem_number_take.mp member).2
    simp only [decide_eq_true_eq]
    omega
  have above : ∀ record ∈ number (covered + 1) (records.drop (covered + 1 - i)),
      decide (covered < record.1) = true := by
    rintro ⟨j, payload⟩ member
    rw [decide_eq_true_eq]
    exact (mem_number.mp member).1
  have start : number (i + (records.take (covered + 1 - i)).length) (records.drop (covered + 1 - i)) =
      number (covered + 1) (records.drop (covered + 1 - i)) := by
    rcases Nat.lt_or_ge records.length (covered + 1 - i) with short | long
    · rw [List.drop_of_length_le short.le]
      rfl
    · rw [List.length_take_of_le long, Nat.add_sub_cancel' reaches]
  calc (number i records).filter (covered < ·.1)
      = (number i (records.take (covered + 1 - i) ++ records.drop (covered + 1 - i))).filter
          (covered < ·.1) := by rw [List.take_append_drop]
    _ = number (covered + 1) (records.drop (covered + 1 - i)) := by
      rw [number_append, List.filter_append, below, List.nil_append, start,
        List.filter_eq_self.mpr above]

theorem number_pairs
    (pairs : List.Forall₂ (fun bytes e => Bincode.serialize e = .ok bytes) records es)
    (indexed : ∀ j e, es[j]? = some e → e.index = i + j) :
    List.Forall₂ (fun record e => record.1 = e.index ∧ Bincode.serialize e = .ok record.2)
      (number i records) es := by
  induction pairs generalizing i with
  | nil => exact .nil
  | @cons bytes e records es encoded _ ih =>
    have index : e.index = i := indexed 0 e rfl
    refine .cons ⟨index.symm, encoded⟩ (ih fun j x found => ?_)
    have later := indexed (j + 1) x (by simpa using found)
    omega

end Records

namespace RaftCore

section Lookups
variable {W : Type} {core : RaftCore W} {i p : Nat}

theorem Contiguous.below (whole : core.Contiguous) :
    core.snapshot.lastIncludedIndex ≤ core.lastLogIndex := by
  rw [whole.lastLogIndex]
  exact Nat.le_add_right _ _

theorem Contiguous.le_last (whole : core.Contiguous) {e : LogEntry} (member : e ∈ core.entries) :
    e.index ≤ core.lastLogIndex := by
  obtain ⟨j, found⟩ := List.getElem?_of_mem member
  have inside := (List.getElem?_eq_some_iff.mp found).1
  have index := whole j e found
  rw [whole.lastLogIndex]
  omega

theorem Contiguous.termAt_isSome (whole : core.Contiguous)
    (above : core.snapshot.lastIncludedIndex < i) :
    (core.termAt i).isSome ↔ i ≤ core.lastLogIndex := by
  have base : ¬ i < core.baseIndex := Nat.not_lt.mpr above
  rw [termAt_entry above, Option.isSome_map, RaftCore.entryAt, if_neg base, whole.lastLogIndex,
    Option.isSome_iff_ne_none, ne_eq, List.getElem?_eq_none_iff, baseIndex]
  omega

theorem Contiguous.concat {core' : RaftCore W} {e : LogEntry} (whole : core.Contiguous)
    (next : e.index = core.lastLogIndex + 1) (snapshot : core'.snapshot = core.snapshot)
    (entries : core'.entries = core.entries ++ [e]) :
    core'.Contiguous ∧ core'.lastLogIndex = core.lastLogIndex + 1 := by
  have grown : core'.Contiguous := by
    intro i x found
    rw [entries] at found
    rw [snapshot]
    rcases Nat.lt_trichotomy i core.entries.length with inside | rfl | beyond
    · rw [List.getElem?_append_left inside] at found
      exact whole i x found
    · rw [List.getElem?_concat_length] at found
      obtain rfl := Option.some.inj found
      rw [next, whole.lastLogIndex]
    · have none : (core.entries ++ [e])[i]? = none := by
        rw [List.getElem?_eq_none_iff, List.length_append]
        exact beyond
      rw [none] at found
      cases found
  refine ⟨grown, ?_⟩
  rw [grown.lastLogIndex, whole.lastLogIndex, snapshot, entries, List.length_append]
  rfl

theorem Contiguous.cut {core' : RaftCore W} (whole : core.Contiguous)
    (above : core.snapshot.lastIncludedIndex ≤ p) (within : p ≤ core.lastLogIndex)
    (snapshot : core'.snapshot = core.snapshot)
    (entries : core'.entries = core.entries.filter (·.index < p + 1)) :
    core'.Contiguous ∧ core'.lastLogIndex = p ∧
      core'.entries = core.entries.take (p - core.snapshot.lastIncludedIndex) := by
  have kept : core'.entries = core.entries.take (p - core.snapshot.lastIncludedIndex) := by
    rw [entries, filter_below whole, Nat.add_sub_add_right]
  have shorter : core'.Contiguous := by
    intro i e found
    rw [kept, List.getElem?_take] at found
    rw [snapshot]
    split_ifs at found
    exact whole i e found
  refine ⟨shorter, ?_, kept⟩
  rw [whole.lastLogIndex] at within
  rw [shorter.lastLogIndex, snapshot, kept, List.length_take]
  omega

/-- The first entry that the log does not have. -/
def fresh (core : RaftCore W) (es : List LogEntry) : Option LogEntry :=
  es.find? fun e => core.baseIndex ≤ e.index ∧ core.termAt e.index ≠ some e.term

/-- Its place is taken, so that the log has to be cut off there. -/
def Conflict (core : RaftCore W) (es : List LogEntry) (e : LogEntry) : Prop :=
  core.fresh es = some e ∧ (core.termAt e.index).isSome

/-- The entries from that one on, which are all appended. -/
def missing (core : RaftCore W) (es : List LogEntry) : List LogEntry :=
  es.dropWhile fun e => ¬ (core.baseIndex ≤ e.index ∧ core.termAt e.index ≠ some e.term)

theorem fresh_cons (core : RaftCore W) (e : LogEntry) (es : List LogEntry) :
    core.fresh (e :: es) = if core.baseIndex ≤ e.index ∧ core.termAt e.index ≠ some e.term
      then some e else core.fresh es := by
  by_cases new : core.baseIndex ≤ e.index ∧ core.termAt e.index ≠ some e.term
  · rw [if_pos new, fresh, List.find?_cons_of_pos (by simpa using new)]
  · rw [if_neg new, fresh, List.find?_cons_of_neg (by simpa using new)]
    rfl

theorem missing_cons (core : RaftCore W) (e : LogEntry) (es : List LogEntry) :
    core.missing (e :: es) = if core.baseIndex ≤ e.index ∧ core.termAt e.index ≠ some e.term
      then e :: es else core.missing es := by
  rw [missing, List.dropWhile_cons]
  by_cases new : core.baseIndex ≤ e.index ∧ core.termAt e.index ≠ some e.term
  · rw [if_pos new, if_neg (by simpa using new)]
  · rw [if_neg new, if_pos (decide_eq_true new)]
    rfl

theorem Contiguous.splice_step [WalOps W] [Bincode] {e : LogEntry} (whole : core.Contiguous)
    (index : e.index = p + 1) (reach : p ≤ core.lastLogIndex) (es : List LogEntry) :
    p + 1 ≤ core.lastLogIndex ∧ core.fresh (e :: es) = core.fresh es ∧
        core.missing (e :: es) = core.missing es ∧ splice (e :: es) core = splice es core ∨
      core.fresh (e :: es) = some e ∧ core.missing (e :: es) = e :: es ∧
        core.snapshot.lastIncludedIndex ≤ p ∧
        (p + 1 ≤ core.lastLogIndex ∧ (core.termAt e.index).isSome ∧ splice (e :: es) core =
            (truncateFrom (p + 1) >>= fun _ => appendReplicated e >>= fun _ => splice es) core ∨
          p = core.lastLogIndex ∧ core.termAt e.index = none ∧
            splice (e :: es) core = (appendReplicated e >>= fun _ => splice es) core) := by
  have below := whole.below
  rw [splice_cons, fresh_cons, missing_cons, index, baseIndex]
  by_cases covered : p + 1 < core.snapshot.lastIncludedIndex + 1
  · have old : ¬ (core.snapshot.lastIncludedIndex + 1 ≤ p + 1 ∧ core.termAt (p + 1) ≠ some e.term) :=
      fun new => absurd covered (Nat.not_lt.mpr new.1)
    exact .inl ⟨by omega, if_neg old, if_neg old, if_pos covered⟩
  · have above : core.snapshot.lastIncludedIndex + 1 ≤ p + 1 := Nat.not_lt.mp covered
    have there := whole.termAt_isSome above
    rw [if_neg covered]
    cases found : core.termAt (p + 1) with
    | none =>
      rw [found] at there
      have beyond : ¬ p + 1 ≤ core.lastLogIndex := fun inside => by cases there.mpr inside
      have new : core.snapshot.lastIncludedIndex + 1 ≤ p + 1 ∧ none ≠ some e.term := ⟨above, by simp⟩
      exact .inr ⟨if_pos new, if_pos new, Nat.le_of_succ_le_succ above, .inr ⟨by omega, rfl, rfl⟩⟩
    | some term =>
      rw [found] at there
      have inside := there.mp rfl
      by_cases same : term = e.term
      · have old : ¬ (core.snapshot.lastIncludedIndex + 1 ≤ p + 1 ∧ some term ≠ some e.term) :=
          fun new => new.2 (congrArg some same)
        exact .inl ⟨inside, if_neg old, if_neg old, if_pos same⟩
      · have new : core.snapshot.lastIncludedIndex + 1 ≤ p + 1 ∧ some term ≠ some e.term :=
          ⟨above, fun equal => same (Option.some.inj equal)⟩
        exact .inr ⟨if_pos new, if_pos new, Nat.le_of_succ_le_succ above,
          .inl ⟨inside, rfl, if_neg same⟩⟩

theorem Contiguous.splice_cases [WalOps W] [Bincode] {es : List LogEntry} (whole : core.Contiguous)
    (reach : p ≤ core.lastLogIndex) (contiguous : ∀ j e, es[j]? = some e → e.index = p + j + 1) :
    core.fresh es = none ∧ core.missing es = [] ∧ splice es core = (.ok (), core) ∨
      ∃ q e rest, core.fresh es = some e ∧ core.missing es = e :: rest ∧ e :: rest <:+ es ∧
        (∀ j x, (e :: rest)[j]? = some x → x.index = q + j + 1) ∧
        core.snapshot.lastIncludedIndex ≤ q ∧
        (q + 1 ≤ core.lastLogIndex ∧ (core.termAt e.index).isSome ∧ splice es core =
            (truncateFrom (q + 1) >>= fun _ => appendReplicated e >>= fun _ => splice rest) core ∨
          q = core.lastLogIndex ∧ core.termAt e.index = none ∧
            splice es core = (appendReplicated e >>= fun _ => splice rest) core) := by
  induction es generalizing p with
  | nil => exact .inl ⟨rfl, rfl, rfl⟩
  | cons e es ih =>
    obtain ⟨index, rest⟩ := consecutive_tail contiguous
    rcases whole.splice_step index reach es with
      ⟨inside, same, gone, round⟩ | ⟨first, all, above, place⟩
    · rw [same, gone, round]
      rcases ih inside rest with none | ⟨q, x, others, found, left, behind, more⟩
      · exact .inl none
      · exact .inr ⟨q, x, others, found, left, behind.trans (List.suffix_cons _ _), more⟩
    · exact .inr ⟨p, e, es, first, all, List.suffix_rfl, contiguous, above, place⟩

end Lookups

section Failures
variable [Checksum] [Bincode] {core core' : RaftCore Log} {lead : List Chunk} {active : Chunk}
  {part : Bytes} {records : List Bytes} {es : List LogEntry} {e : LogEntry} {p : Nat}
  {clock : Clock} {args : AppendEntriesArgs}

/-- The records of the write-ahead log above the snapshot are the encodings of the entries. -/
structure Backed (core : RaftCore Log) (records : List Bytes) : Prop where
  whole : core.Contiguous
  reaches : core.log.firstIndex ≤ core.snapshot.lastIncludedIndex + 1
  last : core.log.lastIndex = core.lastLogIndex
  encoded : List.Forall₂ (fun bytes e => Bincode.serialize e = .ok bytes)
    (records.drop (core.snapshot.lastIncludedIndex + 1 - core.log.firstIndex)) core.entries

/-- The entries have consecutive indices, the last index of the write-ahead log is theirs, and
once it is synced it returns each entry under its index and above the snapshot nothing else. -/
def InStep (core : RaftCore Log) : Prop :=
  core.Contiguous ∧ core.log.lastIndex = core.lastLogIndex ∧
    ∃ log', Log.sync core.log.healed = (.ok (), log') ∧ { core with log := log' }.Mirrored

theorem Backed.inStep (backed : core.Backed (flat (lead ++ [active])))
    (laid : core.log.Laid lead active) : core.InStep := by
  have healed : core.log.healed.Laid lead active := laid.outcomes []
  obtain ⟨lead', active', ended, log', ran, laid', first, _, same, synced, healthy⟩ := healed.sync_cases
  obtain ⟨rfl, none⟩ := healthy rfl
  refine ⟨backed.whole, backed.last, log', ran, _, laid'.readAll_reached none
    fun c member => (synced rfl c member).content, ?_⟩
  have first : log'.firstIndex = core.log.firstIndex := first
  rw [same, first, number_filter backed.reaches]
  refine number_pairs backed.encoded fun j e found => ?_
  have index := backed.whole j e found
  omega

theorem not_inStep {x : LogEntry} {wanted : Bytes} (member : x ∈ core.entries)
    (encoded : Bincode.serialize x = .ok wanted) (misses : core.log.Misses x.index wanted) :
    ¬ core.InStep := by
  rintro ⟨_, _, log', synced, records, read, pairs⟩
  obtain ⟨⟨i, bytes⟩, kept, index, same⟩ := forall₂_mem pairs.flip member
  obtain rfl : i = x.index := index
  obtain rfl := Except.ok.inj (same.symm.trans encoded)
  exact misses log' records synced read (List.mem_of_mem_filter kept)

/-- The log is as it should be, except that part of a frame may stand behind its last record. -/
def Standing (core : RaftCore Log) (part : Bytes) : Prop :=
  ∃ lead active, core.log.Frayed lead active part ∧ core.Backed (flat (lead ++ [active]))

theorem Standing.inStep_iff (standing : core.Standing part) : core.InStep ↔ part = [] := by
  obtain ⟨lead, active, frayed, backed⟩ := standing
  constructor
  · rintro ⟨_, _, log', synced, records, read, pairs⟩
    by_contra torn
    obtain ⟨bytes, member⟩ := frayed.read_beyond torn synced read
    have above : core.snapshot.lastIncludedIndex < core.log.lastIndex + 1 := by
      rw [backed.last]
      exact Nat.lt_succ_of_le backed.whole.below
    have kept : (core.log.lastIndex + 1, bytes) ∈
        records.filter (core.snapshot.lastIncludedIndex < ·.1) :=
      List.mem_filter.mpr ⟨member, decide_eq_true above⟩
    obtain ⟨e, inside, index, _⟩ := forall₂_mem pairs kept
    have within := backed.whole.le_last inside
    have last := backed.last
    omega
  · intro none
    obtain ⟨active', laid, _, same⟩ := frayed.mend none
    have flat_same : flat (lead ++ [active']) = flat (lead ++ [active]) := by
      simp only [flat_append, flat_cons, flat_nil, same]
    exact Backed.inStep (flat_same ▸ backed) laid

/-- The write-ahead log is laid out and agrees with the entries. -/
def Kept (core : RaftCore Log) : Prop :=
  ∃ lead active, core.log.Laid lead active ∧ core.Backed (flat (lead ++ [active]))

theorem Kept.standing (kept : core.Kept) : core.Standing [] := by
  obtain ⟨lead, active, laid, backed⟩ := kept
  exact ⟨lead, active, laid.frayed, backed⟩

namespace Backed

omit [Checksum] in
theorem moved (backed : core.Backed records) (snapshot : core'.snapshot = core.snapshot)
    (entries : core'.entries = core.entries) (first : core'.log.firstIndex = core.log.firstIndex)
    (last : core'.log.lastIndex = core.log.lastIndex) : core'.Backed records where
  whole := by
    rw [Contiguous, snapshot, entries]
    exact backed.whole
  reaches := by
    rw [first, snapshot]
    exact backed.reaches
  last := by
    rw [last, backed.last, RaftCore.lastLogIndex, RaftCore.lastLogIndex, snapshot, entries]
  encoded := by
    rw [first, snapshot, entries]
    exact backed.encoded

theorem covers (backed : core.Backed records)
    (laid : core.log.Laid lead active) (all : records = flat (lead ++ [active])) :
    core.snapshot.lastIncludedIndex + 1 - core.log.firstIndex ≤ records.length := by
  have size := laid.last
  have last := backed.last
  have below := backed.whole.below
  rw [all]
  omega

omit [Checksum] in
theorem grow (backed : core.Backed records)
    (covers : core.snapshot.lastIncludedIndex + 1 - core.log.firstIndex ≤ records.length)
    (next : e.index = core.lastLogIndex + 1) {bytes : Bytes}
    (encoded : Bincode.serialize e = .ok bytes) (snapshot : core'.snapshot = core.snapshot)
    (entries : core'.entries = core.entries ++ [e])
    (first : core'.log.firstIndex = core.log.firstIndex)
    (last : core'.log.lastIndex = core.log.lastIndex + 1) : core'.Backed (records ++ [bytes]) := by
  obtain ⟨whole, ends⟩ := backed.whole.concat next snapshot entries
  refine ⟨whole, ?_, ?_, ?_⟩
  · rw [first, snapshot]
    exact backed.reaches
  · rw [last, ends, backed.last]
  · rw [first, snapshot, entries, List.drop_append_of_le_length covers]
    exact List.rel_append backed.encoded (.cons encoded .nil)

end Backed

/-- The records of entries, as far as these can be encoded. -/
def encodings : List LogEntry → List Bytes
  | [] => []
  | e :: es =>
    match Bincode.serialize e with
    | .ok bytes => bytes :: encodings es
    | .error _ => []

/-- A frame could not be written, and part of it is left if it was torn. -/
def Unstored (torn : Prop) (core : RaftCore Log) : Prop :=
  ∃ part, core.Standing part ∧ (part = [] ↔ ¬ torn)

theorem appendReplicated_leads (kept : core.Kept) (next : e.index = core.lastLogIndex + 1)
    (small : ∀ bytes, Bincode.serialize e = .ok bytes → bytes.length ≤ maxRecordLen)
    (es : List LogEntry) :
    Fallible.Leads (appendReplicated e) core (Unstored (core.log.Tears (encodings (e :: es))))
      fun _ t => t.Kept ∧ t.lastLogIndex = core.lastLogIndex + 1 ∧
        (core.log.Tears (encodings (e :: es)) ↔ t.log.Tears (encodings es)) := by
  rcases encoded : Bincode.serialize e with error | bytes
  · rw [Fallible.Leads, appendReplicated, encoded]
    refine ⟨[], kept.standing, iff_of_true rfl ?_⟩
    rw [encodings, encoded]
    exact not_false
  · obtain ⟨lead, active, laid, backed⟩ := kept
    have records : encodings (e :: es) = bytes :: encodings es := by
      rw [encodings, encoded]
    rw [appendReplicated, encoded, records]
    have appending := laid.append_leads (small bytes encoded) (encodings es)
    refine Fallible.Leads.ok_bind ((appending.part.mono ?_).bind ?_)
    · rintro _ ⟨log', ⟨lead', active', part, frayed, first, last, same, none⟩, rfl⟩
      exact ⟨part, ⟨lead', active', frayed, same.symm ▸ backed.moved rfl rfl first last⟩, none⟩
    · rintro _ _ ⟨log', ⟨lead', active', laid', first, last, same, later⟩, rfl⟩
      have grown : RaftCore.Backed { core with log := log', entries := core.entries ++ [e] }
          (flat (lead' ++ [active'])) := by
        rw [same]
        exact backed.grow (backed.covers laid rfl) next encoded rfl rfl first last
      refine ⟨⟨lead', active', laid', grown⟩, ?_, later⟩
      exact grown.last.symm.trans (last.trans (congrArg (· + 1) backed.last))

theorem splice_end (kept : core.Kept)
    (contiguous : ∀ j e, es[j]? = some e → e.index = core.lastLogIndex + j + 1)
    (small : ∀ e ∈ es, ∀ bytes, Bincode.serialize e = .ok bytes → bytes.length ≤ maxRecordLen) :
    Fallible.Leads (splice es) core (Unstored (core.log.Tears (encodings es)))
      fun _ t => t.Kept ∧ ¬ core.log.Tears (encodings es) := by
  induction es generalizing core with
  | nil => exact ⟨kept, not_false⟩
  | cons e es ih =>
    obtain ⟨next, rest⟩ := consecutive_tail contiguous
    have whole : core.Contiguous := by
      obtain ⟨_, _, _, backed⟩ := kept
      exact backed.whole
    rcases whole.splice_step next le_rfl es with
      ⟨inside, _⟩ | ⟨_, _, _, ⟨inside, _⟩ | ⟨_, _, round⟩⟩
    · exact absurd inside (Nat.not_succ_le_self _)
    · exact absurd inside (Nat.not_succ_le_self _)
    · rw [Fallible.Leads, round]
      refine (appendReplicated_leads kept next (small e List.mem_cons_self) es).bind ?_
      rintro _ t ⟨kept', last, later⟩
      rw [later]
      refine ih kept' ?_ fun x member => small x (List.mem_cons_of_mem _ member)
      rw [last]
      exact rest

/-- Where the request conflicts with the log, the write-ahead log is cut off without an error. -/
def CutsOff (core : RaftCore Log) (es : List LogEntry) : Prop :=
  ∀ e, core.Conflict es e → (Log.truncateSuffix (e.index - 1) core.log).1 = .ok ()

/-- In the segment that such a cut falls into, what is to be kept has reached the file. -/
def Spared (core : RaftCore Log) (es : List LogEntry) (chunks : List Chunk) : Prop :=
  ∀ e, core.Conflict es e → Log.OnFile (e.index - 1) chunks

/-- The write-ahead log that entries are appended to, which is cut off first where the request
conflicts with it. -/
def cutLog (core : RaftCore Log) (es : List LogEntry) : Log :=
  match core.fresh es with
  | some e =>
    if (core.termAt e.index).isSome then (Log.truncateSuffix (e.index - 1) core.log).2 else core.log
  | none => core.log

/-- An entry fails to be appended with part of its frame written. -/
def Tears (core : RaftCore Log) (es : List LogEntry) : Prop :=
  (core.cutLog es).Tears (encodings (core.missing es))

/-- How storing entries may fail: in cutting off the log, or with the log as it should be except
for a frame that was written in part. -/
def Failed (core : RaftCore Log) (es : List LogEntry) (t : RaftCore Log) : Prop :=
  ¬ core.CutsOff es ∧ ¬ t.InStep ∨ core.CutsOff es ∧ t.Unstored (core.Tears es)

/-- The entries from an index on are cut off in any case. -/
def shortened (core : RaftCore Log) (p : Nat) (log : Log) : RaftCore Log :=
  { core with entries := core.entries.filter (·.index < p + 1), log }

omit [Bincode] in
theorem truncateFrom_run (core : RaftCore Log) (p : Nat) : truncateFrom (p + 1) core =
    ((Log.truncateSuffix p core.log).1, core.shortened p (Log.truncateSuffix p core.log).2) := rfl

omit [Checksum] in
theorem Backed.shortened (backed : core.Backed records)
    (above : core.snapshot.lastIncludedIndex ≤ p) (within : p + 1 ≤ core.lastLogIndex) (log : Log) :
    (core.shortened p log).Contiguous ∧ (core.shortened p log).lastLogIndex = p ∧
      (core.shortened p log).entries = core.entries.take (p - core.snapshot.lastIncludedIndex) :=
  backed.whole.cut above (Nat.le_of_succ_le within) rfl rfl

section Cut
variable (laid : core.log.Laid lead active) (backed : core.Backed (flat (lead ++ [active])))
  (above : core.snapshot.lastIncludedIndex ≤ p) (within : p + 1 ≤ core.lastLogIndex)

include laid backed above within

omit laid in
theorem truncateFrom_stops {stop : Stop}
    (failed : truncateFrom (p + 1) core = (.error stop, core')) : ¬ core'.InStep := by
  rw [truncateFrom_run] at failed
  obtain ⟨ended, rfl⟩ := Prod.mk.inj failed
  intro inStep
  have ends : (Log.truncateSuffix p core.log).2.lastIndex = p :=
    inStep.2.1.trans (backed.shortened above within _).2.1
  have same : (Log.truncateSuffix p core.log).2.lastIndex = core.log.lastIndex :=
    (Log.truncateSuffix_sameEnd p core.log).stops (Prod.ext ended rfl)
  have last := backed.last
  omega

theorem truncateFrom_keeps (onFile : Log.OnFile p (lead ++ [active]))
    (ran : truncateFrom (p + 1) core = (.ok (), core')) :
    core'.Kept ∧ core'.lastLogIndex = p ∧ core'.log = (Log.truncateSuffix p core.log).2 := by
  have reaches := backed.reaches
  have accepted : core.log.firstIndex ≤ p + 1 := reaches.trans (Nat.succ_le_succ above)
  have cut : p < core.log.lastIndex := backed.last ▸ within
  rw [truncateFrom_run] at ran
  obtain ⟨ended, rfl⟩ := Prod.mk.inj ran
  obtain ⟨whole, ends, entries⟩ := backed.shortened above within (Log.truncateSuffix p core.log).2
  obtain ⟨front, c, laid', first, last, kept⟩ :=
    (laid.truncateSuffix_cases onFile accepted cut).returns (Prod.ext ended rfl)
  refine ⟨⟨front, c, laid', whole, first.trans_le reaches, last.trans ends.symm, ?_⟩, ends, rfl⟩
  have width : p + 1 - core.log.firstIndex -
      (core.snapshot.lastIncludedIndex + 1 - core.log.firstIndex) =
      p - core.snapshot.lastIncludedIndex := by omega
  have pairs := List.forall₂_take (p - core.snapshot.lastIncludedIndex) backed.encoded
  rw [← entries, ← width, ← List.drop_take, ← kept, ← first] at pairs
  exact pairs

end Cut

theorem splice_leads (laid : core.log.Laid lead active)
    (backed : core.Backed (flat (lead ++ [active]))) (reach : p ≤ core.lastLogIndex)
    (spared : core.Spared es (lead ++ [active]))
    (contiguous : ∀ j e, es[j]? = some e → e.index = p + j + 1)
    (small : ∀ e ∈ es, ∀ bytes, Bincode.serialize e = .ok bytes → bytes.length ≤ maxRecordLen) :
    Fallible.Leads (splice es) core (core.Failed es)
      fun _ t => (core.CutsOff es ∧ ¬ core.Tears es) ∧ t.Kept := by
  rcases backed.whole.splice_cases reach contiguous with
    ⟨none, nothing, ran⟩ | ⟨q, e, rest, first, all, behind, indices, above, place⟩
  · have cuts : core.CutsOff es := fun e conflict => by
      have found := conflict.1
      rw [none] at found
      cases found
    have untorn : ¬ core.Tears es := by
      rw [Tears, nothing]
      exact not_false
    rw [Fallible.Leads, ran]
    exact ⟨⟨cuts, untorn⟩, lead, active, laid, backed⟩
  obtain ⟨index, later⟩ := consecutive_tail indices
  have small' : ∀ x ∈ e :: rest, ∀ bytes, Bincode.serialize x = .ok bytes →
      bytes.length ≤ maxRecordLen := fun x member => small x (behind.subset member)
  have appended : ∀ {t : RaftCore Log}, core.CutsOff es → t.Kept → t.lastLogIndex = q →
      (core.Tears es ↔ t.log.Tears (encodings (e :: rest))) →
      Fallible.Leads (appendReplicated e >>= fun _ => splice rest) t (core.Failed es)
        fun _ t => (core.CutsOff es ∧ ¬ core.Tears es) ∧ t.Kept := by
    intro t cuts kept last tears
    have next : e.index = t.lastLogIndex + 1 := last ▸ index
    have whole : Fallible.Leads (appendReplicated e >>= fun _ => splice rest) t
        (Unstored (core.Tears es)) fun _ u => u.Kept ∧ ¬ core.Tears es := by
      rw [tears]
      refine (appendReplicated_leads kept next (small' e List.mem_cons_self) rest).bind ?_
      rintro _ u ⟨kept', ends, same⟩
      rw [same]
      refine splice_end kept' ?_ fun x member => small' x (List.mem_cons_of_mem _ member)
      rw [ends, last]
      exact later
    exact whole.weaken (fun u unstored => .inr ⟨cuts, unstored⟩)
      fun _ u ended => ⟨⟨cuts, ended.2⟩, ended.1⟩
  rw [Fallible.Leads]
  rcases place with ⟨inside, there, round⟩ | ⟨rfl, none, round⟩
  · have only : ∀ x, core.Conflict es x ↔ x = e := by
      intro x
      constructor
      · exact fun conflict => Option.some.inj (conflict.1.symm.trans first)
      · rintro rfl
        exact ⟨first, there⟩
    have cuts : core.CutsOff es ↔ (truncateFrom (q + 1) core).1 = .ok () := by
      simp only [CutsOff, only, forall_eq, index, Nat.add_sub_cancel, truncateFrom_run]
    have onFile := spared e ((only e).mpr rfl)
    rw [index, Nat.add_sub_cancel] at onFile
    rw [round]
    rcases ran : truncateFrom (q + 1) core with ⟨stop | ⟨⟩, t⟩ <;> rw [ran] at cuts
    · rw [Fallible.bind_error ran]
      refine .inl ⟨fun ok => ?_, truncateFrom_stops backed above inside ran⟩
      cases cuts.mp ok
    · obtain ⟨kept, last, log⟩ := truncateFrom_keeps laid backed above inside onFile ran
      rw [Fallible.bind_ok ran]
      refine appended (cuts.mpr rfl) kept last ?_
      rw [Tears, cutLog, first, all]
      dsimp only
      rw [if_pos there, index, Nat.add_sub_cancel, log]
  · have cuts : core.CutsOff es := by
      intro x other
      obtain rfl := Option.some.inj (first.symm.trans other.1)
      have there := other.2
      rw [none] at there
      cases there
    rw [round]
    refine appended cuts ⟨lead, active, laid, backed⟩ rfl ?_
    rw [Tears, cutLog, first, all]
    dsimp only
    rw [none, if_neg (by simp)]

/-- An entry has no record that could be read, now or after more entries are appended. -/
structure Skewed (core : RaftCore Log) (x : LogEntry) (wanted : Bytes) : Prop where
  whole : core.Contiguous
  member : x ∈ core.entries
  encoded : Bincode.serialize x = .ok wanted
  inside : x.index ≤ core.log.lastIndex
  lacks : ∃ lead active, core.log.Stacked lead active ∧ Log.Lacks lead active x.index wanted

section Losses
variable {x : LogEntry} {wanted : Bytes}

theorem Skewed.not_inStep (skewed : core.Skewed x wanted) : ¬ core.InStep := by
  obtain ⟨lead, active, stacked, lacks⟩ := skewed.lacks
  exact RaftCore.not_inStep skewed.member skewed.encoded (stacked.misses lacks)

theorem appendReplicated_skewed [LawfulBincode] (skewed : core.Skewed x wanted)
    (next : e.index = core.lastLogIndex + 1)
    (small : ∀ bytes, Bincode.serialize e = .ok bytes → bytes.length ≤ maxRecordLen) :
    Fallible.Leads (appendReplicated e) core (fun t => ¬ t.InStep)
      fun _ t => t.Skewed x wanted ∧ t.lastLogIndex = core.lastLogIndex + 1 := by
  rcases encoded : Bincode.serialize e with error | bytes
  · rw [Fallible.Leads, appendReplicated, encoded]
    exact skewed.not_inStep
  · have other : bytes ≠ wanted := by
      rintro rfl
      have same := (LawfulBincode.roundtrip encoded).symm.trans
        (LawfulBincode.roundtrip skewed.encoded)
      have within := skewed.whole.le_last skewed.member
      rw [← Except.ok.inj same, next] at within
      exact Nat.not_succ_le_self _ within
    obtain ⟨lead, active, stacked, lacks⟩ := skewed.lacks
    rw [appendReplicated, encoded]
    have appending := stacked.append_lacks lacks skewed.inside (small bytes encoded) other
    refine Fallible.Leads.ok_bind ((appending.part.mono ?_).bind ?_)
    · rintro _ ⟨log', misses, rfl⟩
      exact RaftCore.not_inStep skewed.member skewed.encoded misses
    · rintro _ _ ⟨log', ⟨last, stacked'⟩, rfl⟩
      have longer : RaftCore.Contiguous { core with log := log', entries := core.entries ++ [e] } ∧
          RaftCore.lastLogIndex { core with log := log', entries := core.entries ++ [e] } =
            core.lastLogIndex + 1 := skewed.whole.concat next rfl rfl
      exact ⟨⟨longer.1, List.mem_append_left _ skewed.member, skewed.encoded,
        last ▸ Nat.le_succ_of_le skewed.inside, stacked'⟩, longer.2⟩

theorem splice_skewed [LawfulBincode] (skewed : core.Skewed x wanted)
    (contiguous : ∀ j e, es[j]? = some e → e.index = core.lastLogIndex + j + 1)
    (small : ∀ e ∈ es, ∀ bytes, Bincode.serialize e = .ok bytes → bytes.length ≤ maxRecordLen) :
    Fallible.Leads (splice es) core (fun t => ¬ t.InStep) fun _ t => t.Skewed x wanted := by
  induction es generalizing core with
  | nil => exact skewed
  | cons e es ih =>
    obtain ⟨next, rest⟩ := consecutive_tail contiguous
    rcases skewed.whole.splice_step next le_rfl es with
      ⟨inside, _⟩ | ⟨_, _, _, ⟨inside, _⟩ | ⟨_, _, round⟩⟩
    · exact absurd inside (Nat.not_succ_le_self _)
    · exact absurd inside (Nat.not_succ_le_self _)
    · rw [Fallible.Leads, round]
      refine (appendReplicated_skewed skewed next (small e List.mem_cons_self)).bind ?_
      rintro _ t ⟨skewed', last⟩
      refine ih skewed' ?_ fun y member => small y (List.mem_cons_of_mem _ member)
      rw [last]
      exact rest

theorem sync_skewed (skewed : core.Skewed x wanted) :
    Fallible.Leads RaftCore.sync core (fun t => ¬ t.InStep) fun _ _ => True := by
  obtain ⟨lead, active, stacked, lacks⟩ := skewed.lacks
  obtain ⟨chunks', ended, outcomes, same, ran, _⟩ := stacked.sync_cases
  obtain ⟨lead', active', rfl, _⟩ := same.split
  have misses := (stacked.moved same outcomes).misses (lacks.moved same)
  have syncing : Fallible.Leads Log.sync core.log (fun t => t.Misses x.index wanted)
      fun _ _ => True := by
    rw [Fallible.Leads, ran]
    cases ended
    · exact misses
    · trivial
  have ran : Fallible.Leads (onLog WalOps.sync) core
      (fun t => ∃ log, log.Misses x.index wanted ∧ t = { core with log })
      fun _ t => ∃ log, True ∧ t = { core with log } := Fallible.Leads.part syncing
  refine ran.weaken ?_ fun _ _ _ => trivial
  rintro _ ⟨log', misses, rfl⟩
  exact RaftCore.not_inStep skewed.member skewed.encoded misses

end Losses

theorem truncateFrom_loses (laid : core.log.Laid lead active)
    (backed : core.Backed (flat (lead ++ [active])))
    (above : core.snapshot.lastIncludedIndex ≤ p) (within : p + 1 ≤ core.lastLogIndex)
    (lost : ¬ Log.OnFile p (lead ++ [active])) (flushed : ∀ c ∈ lead ++ [active],
      c.Reached (core.snapshot.lastIncludedIndex + 1 - c.base))
    (ran : truncateFrom (p + 1) core = (.ok (), core')) :
    core'.lastLogIndex = p ∧ ∃ x wanted, core'.Skewed x wanted := by
  have accepted : core.log.firstIndex ≤ p + 1 := backed.reaches.trans (Nat.succ_le_succ above)
  have cut : p < core.log.lastIndex := backed.last ▸ within
  rw [truncateFrom_run] at ran
  obtain ⟨ended, rfl⟩ := Prod.mk.inj ran
  obtain ⟨whole, ends, entries⟩ := backed.shortened above within (Log.truncateSuffix p core.log).2
  obtain ⟨last, front, c, q, stacked, uncovered, low, lacks⟩ :=
    laid.truncateSuffix_loses accepted cut lost above flushed (Prod.ext ended rfl)
  have total := backed.whole.lastLogIndex
  have place : q - core.snapshot.lastIncludedIndex - 1 < core.entries.length := by omega
  obtain ⟨x, found⟩ : ∃ x, core.entries[q - core.snapshot.lastIncludedIndex - 1]? = some x :=
    ⟨_, List.getElem?_eq_getElem place⟩
  have index := backed.whole _ x found
  have inside : x ∈ core.entries := List.mem_of_getElem? found
  obtain ⟨wanted, _, encoded⟩ := forall₂_mem backed.encoded.flip inside
  have here : q = x.index := by omega
  have kept : x ∈ (core.shortened p (Log.truncateSuffix p core.log).2).entries :=
    List.mem_filter.mpr ⟨inside, decide_eq_true (by omega)⟩
  refine ⟨ends, x, wanted, whole, kept, encoded, ?_, front, c, stacked, here ▸ lacks wanted⟩
  have last : (core.shortened p (Log.truncateSuffix p core.log).2).log.lastIndex = p := last
  omega

theorem splice_loses [LawfulBincode] (laid : core.log.Laid lead active)
    (backed : core.Backed (flat (lead ++ [active]))) (reach : p ≤ core.lastLogIndex)
    (lost : ¬ core.Spared es (lead ++ [active])) (flushed : ∀ c ∈ lead ++ [active],
      c.Reached (core.snapshot.lastIncludedIndex + 1 - c.base))
    (contiguous : ∀ j e, es[j]? = some e → e.index = p + j + 1)
    (small : ∀ e ∈ es, ∀ bytes, Bincode.serialize e = .ok bytes → bytes.length ≤ maxRecordLen) :
    Fallible.Leads (splice es) core (fun t => ¬ t.InStep)
      fun _ t => ∃ x wanted, t.Skewed x wanted := by
  rcases backed.whole.splice_cases reach contiguous with
    ⟨none, _⟩ | ⟨q, e, rest, first, all, behind, indices, above, place⟩
  · refine absurd (fun e conflict => ?_) lost
    have found := conflict.1
    rw [none] at found
    cases found
  obtain ⟨index, later⟩ := consecutive_tail indices
  rcases place with ⟨inside, there, round⟩ | ⟨_, none, _⟩
  · have unread : ¬ Log.OnFile q (lead ++ [active]) := by
      intro onFile
      refine lost fun x conflict => ?_
      obtain rfl := Option.some.inj (first.symm.trans conflict.1)
      rw [index]
      exact onFile
    rw [Fallible.Leads, round]
    rcases ran : truncateFrom (q + 1) core with ⟨stop | ⟨⟩, t⟩
    · rw [Fallible.bind_error ran]
      exact truncateFrom_stops backed above inside ran
    · obtain ⟨last, x, wanted, skewed⟩ :=
        truncateFrom_loses laid backed above inside unread flushed ran
      rw [Fallible.bind_ok ran]
      have small' : ∀ y ∈ e :: rest, ∀ bytes, Bincode.serialize y = .ok bytes →
          bytes.length ≤ maxRecordLen := fun y member => small y (behind.subset member)
      have next : e.index = t.lastLogIndex + 1 := last ▸ index
      refine (appendReplicated_skewed skewed next (small' e List.mem_cons_self)).bind ?_
      rintro _ u ⟨skewed', ends⟩
      have indices' : ∀ j y, rest[j]? = some y → y.index = u.lastLogIndex + j + 1 := by
        rw [ends, last]
        exact later
      exact (splice_skewed skewed' indices' fun y member =>
        small' y (List.mem_cons_of_mem _ member)).weaken (fun _ apart => apart) fun _ _ skewed'' =>
          ⟨x, wanted, skewed''⟩
  · refine absurd (fun x conflict => ?_) lost
    obtain rfl := Option.some.inj (first.symm.trans conflict.1)
    have there := conflict.2
    rw [none] at there
    cases there

theorem sync_leads (kept : core.Kept) :
    Fallible.Leads RaftCore.sync core RaftCore.Kept fun _ => RaftCore.Kept := by
  obtain ⟨lead, active, laid, backed⟩ := kept
  obtain ⟨lead', active', ended, log', ran, laid', first, last, same, _⟩ := laid.sync_cases
  have kept : RaftCore.Kept { core with log := log' } :=
    ⟨lead', active', laid', same.symm ▸ backed.moved rfl rfl first last⟩
  have syncing : Fallible.Leads Log.sync core.log (fun log => log = log') fun _ log => log = log' := by
    rw [Fallible.Leads, ran]
    cases ended <;> rfl
  have ran : Fallible.Leads (onLog WalOps.sync) core (fun t => ∃ log, log = log' ∧ t = { core with log })
      fun _ t => ∃ log, log = log' ∧ t = { core with log } := Fallible.Leads.part syncing
  refine ran.weaken ?_ ?_
  · rintro _ ⟨_, rfl, rfl⟩
    exact kept
  · rintro _ _ ⟨_, rfl, rfl⟩
    exact kept

theorem store_leads (laid : core.log.Laid lead active)
    (backed : core.Backed (flat (lead ++ [active]))) (reach : args.prevLogIndex ≤ core.lastLogIndex)
    (spared : core.Spared args.entries (lead ++ [active]))
    (contiguous : args.Contiguous) (small : ∀ e ∈ args.entries, ∀ bytes,
      Bincode.serialize e = .ok bytes → bytes.length ≤ maxRecordLen) :
    Fallible.Leads (store args) core (core.Failed args.entries) fun _ _ => True := by
  refine (splice_leads laid backed reach spared contiguous small).bind ?_
  rintro _ t ⟨⟨cuts, untorn⟩, kept⟩
  refine ((sync_leads kept).mono fun u kept => ?_).bind fun _ _ _ => trivial
  exact .inr ⟨cuts, [], kept.standing, iff_of_true rfl untorn⟩

theorem store_loses [LawfulBincode] (laid : core.log.Laid lead active)
    (backed : core.Backed (flat (lead ++ [active]))) (reach : args.prevLogIndex ≤ core.lastLogIndex)
    (lost : ¬ core.Spared args.entries (lead ++ [active])) (flushed : ∀ c ∈ lead ++ [active],
      c.Reached (core.snapshot.lastIncludedIndex + 1 - c.base))
    (contiguous : args.Contiguous) (small : ∀ e ∈ args.entries, ∀ bytes,
      Bincode.serialize e = .ok bytes → bytes.length ≤ maxRecordLen) :
    Fallible.Leads (store args) core (fun t => ¬ t.InStep) fun _ _ => True := by
  refine (splice_loses laid backed reach lost flushed contiguous small).bind ?_
  rintro _ t ⟨x, wanted, skewed⟩
  exact (sync_skewed skewed).bind fun _ _ _ => trivial

omit [Checksum] [Bincode] in
theorem SameLog.conflict (same : core.SameLog core') : core'.Conflict es e ↔ core.Conflict es e := by
  have terms : core'.termAt = core.termAt :=
    funext fun _ => termAt_congr same.snapshot same.entries
  rw [Conflict, Conflict, fresh, fresh, terms, baseIndex, baseIndex, same.snapshot]

omit [Bincode] in
theorem SameLog.cutsOff (same : core.SameLog core') : core'.CutsOff es ↔ core.CutsOff es := by
  simp only [CutsOff, same.conflict, same.log]

omit [Checksum] [Bincode] in
theorem SameLog.spared [Checksum] {chunks : List Chunk} (same : core.SameLog core') :
    core'.Spared es chunks ↔ core.Spared es chunks := by
  simp only [Spared, same.conflict]

theorem SameLog.tears (same : core.SameLog core') : core'.Tears es ↔ core.Tears es := by
  have terms : core'.termAt = core.termAt :=
    funext fun _ => termAt_congr same.snapshot same.entries
  rw [Tears, Tears, cutLog, cutLog, missing, missing, fresh, fresh, terms, baseIndex, baseIndex,
    same.snapshot, same.log]

/-- The newer term of the request cannot be persisted, or the range of the timer is empty. -/
def Balks {W : Type} (args : AppendEntriesArgs) (core : RaftCore W) : Prop :=
  core.hard.currentTerm < args.term ∧ core.hardPath.FailsNext ∨
    ¬ asMillis core.electionTimeout.start < asMillis core.electionTimeout.stop

omit [Checksum] [Bincode] in
theorem resetElectionTimer_ok_iff {W : Type} (clock : Clock) (core : RaftCore W) :
    (resetElectionTimer clock core).1 = .ok () ↔
      asMillis core.electionTimeout.start < asMillis core.electionTimeout.stop := by
  constructor
  · intro ok
    by_contra untimed
    rw [resetElectionTimer_untimed untimed] at ok
    cases ok
  · intro timed
    rw [resetElectionTimer_timed timed]

omit [Checksum] [Bincode] in
theorem recognised_iff {W : Type} (core : RaftCore W) (clock : Clock) (args : AppendEntriesArgs) :
    ((do recogniseLeader args; resetElectionTimer clock) core).1 = .ok () ↔ ¬ core.Balks args := by
  rw [Balks, not_or, not_not]
  by_cases newer : core.hard.currentTerm < args.term
  · have begun : recogniseLeader args core = becomeFollower args.term (some args.leaderId) core :=
      if_pos newer
    rcases becomeFollower_newer newer (some args.leaderId) with
      ⟨fails, stop, file, ran⟩ | ⟨works, file, ran, _⟩
    · rw [Fallible.bind_error (begun.trans ran)]
      exact iff_of_false nofun fun heard => heard.1 ⟨newer, fails⟩
    · rw [Fallible.bind_ok (begun.trans ran), resetElectionTimer_ok_iff]
      exact ⟨fun timed => ⟨fun balks => works balks.2, timed⟩, And.right⟩
  · have begun : recogniseLeader args core =
        (.ok (), { core with role := .follower, leaderId := some args.leaderId }) := if_neg newer
    rw [Fallible.bind_ok begun, resetElectionTimer_ok_iff]
    exact ⟨fun timed => ⟨fun balks => newer balks.1, timed⟩, And.right⟩

omit [Checksum] in
theorem handleAppendEntries_failed {W : Type} [WalOps W] {core core' : RaftCore W} {stop : Stop}
    (failed : handleAppendEntries clock args core = (.error stop, core')) :
    core.Balks args ∧ core.SameLog core' ∨ ¬ core.Balks args ∧ ∃ seen,
      core.SameLog seen ∧ seen.Passes args ∧ RaftCore.store args seen = (.error stop, core') := by
  rw [handleAppendEntries, Fallible.bind_ok (Fallible.get_run core)] at failed
  split_ifs at failed
  · cases failed
  rw [← Fallible.bind_assoc] at failed
  have keeps : Fallible.Keeps SameLog
      (do recogniseLeader args; resetElectionTimer clock : Method W Unit) :=
    .bind SameLog.trans (recogniseLeader_sameLog args) fun _ => resetElectionTimer_sameLog clock
  have same := keeps core
  have heard := recognised_iff core clock args
  rcases ran : (do recogniseLeader args; resetElectionTimer clock) core with ⟨stop' | ⟨⟩, seen⟩ <;>
    rw [ran] at same heard
  · rw [Fallible.bind_error ran] at failed
    cases failed
    refine .inl ⟨?_, same⟩
    by_contra spared
    cases heard.mpr spared
  · rw [Fallible.bind_ok ran, matchAndStore_run] at failed
    split_ifs at failed with ahead differs
    · cases failed
    · cases failed
    · exact .inr ⟨heard.mp rfl, seen, same, ⟨Nat.le_of_not_lt ahead, differs⟩, failed⟩

/-- The request fails before it comes to the log; or the log can be cut off where it has to be,
with what is kept on file, and no frame is written in part. -/
def Harmless (core : RaftCore Log) (args : AppendEntriesArgs) (chunks : List Chunk) : Prop :=
  core.Balks args ∨ core.CutsOff args.entries ∧ core.Spared args.entries chunks ∧
    ¬ core.Tears args.entries

/-- After a request that failed harmlessly, entries and write-ahead log are in step, and after no
other if the records that the snapshot covers have reached their files. -/
theorem failed_request_inStep_iff [LawfulBincode] {stop : Stop} (laid : core.log.Laid lead active)
    (backed : core.Backed (flat (lead ++ [active]))) (contiguous : args.Contiguous)
    (small : ∀ e ∈ args.entries, ∀ bytes,
      Bincode.serialize e = .ok bytes → bytes.length ≤ maxRecordLen)
    (failed : handleAppendEntries clock args core = (.error stop, core')) :
    (core.Harmless args (lead ++ [active]) → core'.InStep) ∧
      ((∀ c ∈ lead ++ [active], c.Reached (core.snapshot.lastIncludedIndex + 1 - c.base)) →
        core'.InStep → core.Harmless args (lead ++ [active])) := by
  have kept : ∀ {seen : RaftCore Log}, core.SameLog seen →
      seen.Backed (flat (lead ++ [active])) ∧ seen.log.Laid lead active := fun same =>
    ⟨backed.moved same.snapshot same.entries (congrArg Log.firstIndex same.log)
      (congrArg Log.lastIndex same.log), same.log.symm ▸ laid⟩
  rw [Harmless]
  rcases handleAppendEntries_failed failed with ⟨balks, same⟩ | ⟨heard, seen, same, passes, stored⟩
  · exact ⟨fun _ => (kept same).1.inStep (kept same).2, fun _ _ => .inl balks⟩
  rw [or_iff_right heard]
  by_cases spared : core.Spared args.entries (lead ++ [active])
  · have ended := (store_leads (kept same).2 (kept same).1 passes.1 (same.spared.mpr spared)
      contiguous small).stops stored
    rw [Failed, same.cutsOff, same.tears] at ended
    have exactly : core'.InStep ↔ core.CutsOff args.entries ∧ ¬ core.Tears args.entries := by
      rcases ended with ⟨uncut, apart⟩ | ⟨cuts, part, standing, none⟩
      · exact iff_of_false apart fun harmless => uncut harmless.1
      · rw [standing.inStep_iff, none]
        exact ⟨fun untorn => ⟨cuts, untorn⟩, And.right⟩
    exact ⟨fun ⟨cuts, _, untorn⟩ => exactly.mpr ⟨cuts, untorn⟩,
      fun _ inStep => ⟨(exactly.mp inStep).1, spared, (exactly.mp inStep).2⟩⟩
  · refine ⟨fun harmless => absurd harmless.2.1 spared, fun flushed inStep => ?_⟩
    have flushed' : ∀ c ∈ lead ++ [active],
        c.Reached (seen.snapshot.lastIncludedIndex + 1 - c.base) := same.snapshot ▸ flushed
    exact absurd inStep ((store_loses (kept same).2 (kept same).1 passes.1
      (mt same.spared.mp spared) flushed' contiguous small).stops stored)

end Failures

def encoding (e : LogEntry) : Bytes := (Bincode.serialize e).toOption.getD []

/-- Two entries, on disk. -/
def stored : Chunk :=
  .settled 1 [encoding ⟨1, 1, .noop⟩, encoding ⟨1, 2, .put [1] [1]⟩] (by unfold Fits; decide +kernel)

/-- A follower in term 2 with two entries of term 1. -/
def shelved (outcomes : List Outcome) : RaftCore Log :=
  { assemble ⟨0, 0⟩ ((Config.new 2).withPeers [⟨1, ""⟩, ⟨3, ""⟩]) HardFile.absent default
      ⟨⟨"wal", [stored.entry], [], outcomes⟩, 1000, [stored.segment], 1, 2⟩
      [⟨1, 1, .noop⟩, ⟨1, 2, .put [1] [1]⟩] with
    hard := ⟨2, none⟩ }

theorem shelved_laid (outcomes : List Outcome) : (shelved outcomes).log.Laid [] stored :=
  ⟨rfl, rfl, ⟨rfl, trivial⟩, le_rfl, rfl, by simp, rfl⟩

theorem shelved_backed (outcomes : List Outcome) :
    (shelved outcomes).Backed (flat ([] ++ [stored])) where
  whole := by
    have entries : ∀ i e, [(⟨1, 1, .noop⟩ : LogEntry), ⟨1, 2, .put [1] [1]⟩][i]? = some e →
        e.index = 0 + i + 1 := by decide
    exact entries
  reaches := le_rfl
  last := rfl
  encoded := .cons rfl (.cons rfl .nil)

/-- One more entry. -/
def extending : AppendEntriesArgs := ⟨2, 3, 2, 1, [⟨2, 3, .noop⟩], 0⟩

/-- An entry in the place of the second one. -/
def replacing : AppendEntriesArgs := ⟨2, 3, 1, 1, [⟨2, 2, .noop⟩], 0⟩

/-- The sync fails. The new entry is in memory and in the buffer. -/
theorem failed_request_inStep_iff_sync : ∃ core', handleAppendEntries ⟨0, 0⟩ extending
    (shelved [.failed 0 "Input/output error"]) =
      (.error (.err (.io "Input/output error")), core') ∧ core'.InStep ∧ core'.lastLogIndex = 3 := by
  have stops : (handleAppendEntries ⟨0, 0⟩ extending (shelved [.failed 0 "Input/output error"])).1 =
      .error (.err (.io "Input/output error")) := by decide +kernel
  have untorn : ¬ (shelved [.failed 0 "Input/output error"]).Tears extending.entries := by
    unfold Tears
    decide +kernel
  have last : (handleAppendEntries ⟨0, 0⟩ extending
      (shelved [.failed 0 "Input/output error"])).2.lastLogIndex = 3 := by decide +kernel
  have none : ∀ e, ¬ (shelved [.failed 0 "Input/output error"]).Conflict extending.entries e := by
    rintro e ⟨first, there⟩
    have new : (shelved [.failed 0 "Input/output error"]).fresh extending.entries =
        some ⟨2, 3, .noop⟩ := by decide +kernel
    obtain rfl := Option.some.inj (new.symm.trans first)
    exact absurd there (by decide +kernel)
  have contiguous : extending.Contiguous := by
    have entries : ∀ j e, [(⟨2, 3, .noop⟩ : LogEntry)][j]? = some e → e.index = 2 + j + 1 := by decide
    exact entries
  have small : ∀ e ∈ extending.entries, ∀ bytes, Bincode.serialize e = .ok bytes →
      bytes.length ≤ maxRecordLen := by
    intro e member bytes encoded
    rw [List.mem_singleton.mp member] at encoded
    obtain rfl := Except.ok.inj encoded
    decide +kernel
  rcases ran : handleAppendEntries ⟨0, 0⟩ extending (shelved [.failed 0 "Input/output error"]) with
    ⟨ended, core'⟩
  rw [ran] at stops last
  obtain rfl : ended = _ := stops
  refine ⟨core', rfl, ?_, last⟩
  exact (failed_request_inStep_iff (shelved_laid _) (shelved_backed _) contiguous small ran).1
    (.inr ⟨fun e conflict => absurd conflict (none e), fun e conflict => absurd conflict (none e),
      untorn⟩)

/-- The segment cannot be read: the conflicting entry is gone from memory, but not from the
write-ahead log. When the request is sent again it is accepted, and its entry becomes record 3
behind the one it should have replaced. -/
theorem failed_cut_shifts_records : ∃ core₁ core₂ reply,
    (shelved [.failed 0 "Input/output error"]).InStep ∧
      handleAppendEntries ⟨0, 0⟩ replacing (shelved [.failed 0 "Input/output error"]) =
        (.error (.err (.io "Input/output error")), core₁) ∧
      core₁.lastLogIndex = 1 ∧ core₁.log.lastIndex = 2 ∧ ¬ core₁.InStep ∧
      handleAppendEntries ⟨0, 0⟩ replacing core₁ = (.ok reply, core₂) ∧ reply.success = true ∧
      core₂.entries = [⟨1, 1, .noop⟩, ⟨2, 2, .noop⟩] ∧
      (Log.readAll core₂.log).1 = .ok [(1, encoding ⟨1, 1, .noop⟩),
        (2, encoding ⟨1, 2, .put [1] [1]⟩), (3, encoding ⟨2, 2, .noop⟩)] := by
  let first := handleAppendEntries ⟨0, 0⟩ replacing (shelved [.failed 0 "Input/output error"])
  let second := handleAppendEntries ⟨0, 0⟩ replacing first.2
  have stops : first.1 = .error (.err (.io "Input/output error")) ∧ first.2.lastLogIndex = 1 ∧
      first.2.log.lastIndex = 2 := by decide +kernel
  have again : second.1.toOption = some ⟨2, true, 0⟩ ∧
      second.2.entries = [⟨1, 1, .noop⟩, ⟨2, 2, .noop⟩] ∧
      (Log.readAll second.2.log).1 = .ok [(1, encoding ⟨1, 1, .noop⟩),
        (2, encoding ⟨1, 2, .put [1] [1]⟩), (3, encoding ⟨2, 2, .noop⟩)] := by decide +kernel
  have apart : ¬ first.2.InStep := by
    intro inStep
    have same := inStep.2.1
    rw [stops.2.1, stops.2.2] at same
    cases same
  exact ⟨first.2, second.2, ⟨2, true, 0⟩, (shelved_backed _).inStep (shelved_laid _),
    Prod.ext stops.1 rfl, stops.2.1, stops.2.2, apart, Prod.ext (Except.of_toOption_some again.1) rfl,
    rfl, again.2.1, again.2.2⟩

end RaftCore
end WalKv
