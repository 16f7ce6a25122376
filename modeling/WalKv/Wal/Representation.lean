import WalKv.Wal.Truncation
import Mathlib.Data.List.DropRight

/-! Which files a log lists, whatever the file operations end in. The loops take a segment off
the list before they remove its file, and a rewritten segment is put back on it only once it is
synced: where such an operation fails, the list and the files no longer agree. -/
namespace WalKv

namespace Dir
variable {dir : Dir} {base : Nat}

/-- The names of the files that are there. -/
def names (dir : Dir) : List Nat := dir.files.map Prod.fst

def SameNames (s t : Dir) : Prop := t.names = s.names

theorem SameNames.refl (dir : Dir) : SameNames dir dir := rfl

theorem SameNames.trans {s t u : Dir} (first : SameNames s t) (second : SameNames t u) :
    SameNames s u := Eq.trans second first

theorem setFile_names (base : Nat) (file : File) (dir : Dir) :
    SameNames dir (dir.setFile base file) :=
  Keyed.put_keys base file dir.files

theorem attempt_names : Fallible.Keeps SameNames attempt := by
  intro dir
  rw [attempt_only]
  exact .refl dir

theorem write_names (base : Nat) (bytes : Bytes) (dir : Dir) :
    SameNames dir (dir.write base bytes).2.2 := by
  rw [write]
  rcases found : (attempt dir).2.find base with _ | file
  · simp only [found]
    exact attempt_names dir
  · simp only [found]
    exact (attempt_names dir).trans (setFile_names _ _ _)

theorem existing_names (base : Nat) : Fallible.Keeps SameNames (existing base) := by
  refine .bind SameNames.trans attempt_names fun _ => .bind SameNames.trans (.get .refl) fun dir => ?_
  cases dir.find base with
  | none => exact SameNames.refl
  | some file => exact .pure .refl file

theorem syncAll_names (base : Nat) : Fallible.Keeps SameNames (syncAll base) :=
  .bind SameNames.trans (existing_names base) fun _ => setFile_names _ _

theorem find_of_name (there : base ∈ dir.names) : ∃ file, dir.find base = some file := by
  obtain ⟨⟨_, file⟩, member, rfl⟩ := List.mem_map.mp there
  exact Option.isSome_iff_exists.mp (List.lookup_isSome_iff.mpr ⟨_, member, beq_self_eq_true _⟩)

theorem goesWell_succ (n : Nat) :
    GoesWell (n + 1) dir.outcomes ↔ ¬ dir.Fails ∧ GoesWell n (dir.outcomes.drop 1) := by
  rcases attempt_goes dir with ⟨ready, counts⟩ | ⟨stop, outcomes, stopped, never⟩
  · exact (counts n).trans (and_iff_right ready.not_fails).symm
  · exact iff_of_false (never n) fun well => well.1 (fails_of_stopped stopped)

/-- One operation later: it has gone well, and the files that are left are as they were. -/
structure Later (dir : Dir) (base : Nat) (t : Dir) : Prop where
  succeeds : ¬ dir.Fails
  outcomes : t.outcomes = dir.outcomes.drop 1
  names : t.names = dir.names.filter (· ≠ base)
  find : ∀ other, other ≠ base → t.find other = dir.find other

theorem removeFile_leads (there : base ∈ dir.names) : Fallible.Leads (removeFile base) dir
    (fun t => dir.Fails ∧ SameNames dir t) fun _ => dir.Later base := by
  obtain ⟨file, found⟩ := find_of_name there
  rcases attempt_goes dir with ⟨ready, _⟩ | ⟨stop, outcomes, stopped, _⟩
  · rw [Fallible.Leads, removeFile_run ready found]
    refine ⟨ready.not_fails, rfl, ?_, fun other different => ?_⟩
    · rw [names, names, List.filter_map]
      rfl
    · exact Keyed.lookup_remove different
  · rw [Fallible.Leads, removeFile, Fallible.bind_error (existing_stopped stopped)]
    exact ⟨fails_of_stopped stopped, .refl dir⟩

theorem createNew_names (base : Nat) (dir : Dir) :
    Fallible.Leads (createNew base) dir (SameNames dir) fun _ t =>
      base ∉ dir.names ∧ t.names = dir.names ++ [base] := by
  rcases attempt_cases dir with ⟨outcomes, ready, _⟩ | ⟨stop, outcomes, stopped, _⟩
  · by_cases there : base ∈ dir.names
    · obtain ⟨file, found⟩ := find_of_name there
      have found : Dir.find base { dir with outcomes } = some file := found
      rw [Fallible.Leads, createNew, Fallible.bind_ok ready, Fallible.bind_run, Fallible.get_run]
      simp only [found, Option.isSome_some, if_true]
      exact .refl dir
    · rw [Fallible.Leads, createNew_run ready (Keyed.lookup_absent there)]
      exact ⟨there, List.map_append⟩
  · rw [Fallible.Leads, createNew, Fallible.bind_error stopped]
    exact .refl dir

end Dir

namespace Segment

/-- The names of the files, and what a segment that is written to keeps. -/
def Stays (s t : Dir × Segment) : Prop :=
  Dir.SameNames s.1 t.1 ∧ t.2.baseIndex = s.2.baseIndex ∧ t.2.count = s.2.count

namespace Stays

theorem refl (s : Dir × Segment) : Stays s s := ⟨.refl _, rfl, rfl⟩

theorem trans {s t u : Dir × Segment} (first : Stays s t) (second : Stays t u) : Stays s u :=
  ⟨first.1.trans second.1, second.2.1.trans first.2.1, second.2.2.trans first.2.2⟩

end Stays

theorem create_leads (base : Nat) (dir : Dir) : Fallible.Leads (create base) dir (Dir.SameNames dir)
    fun seg t => seg = ⟨base, [], 0, 0⟩ ∧ base ∉ dir.names ∧ t.names = dir.names ++ [base] :=
  (Dir.createNew_names base dir).bind fun _ _ new => ⟨rfl, new⟩

theorem flushBuf_stays : Fallible.Keeps Stays flushBuf := by
  rintro ⟨dir, seg⟩
  rw [flushBuf]
  split_ifs
  · exact .refl _
  · exact ⟨Dir.write_names _ _ _, rfl, rfl⟩

theorem abandon_names {α : Type} (seg : Segment) (stop : Stop) (dir : Dir) :
    ∃ stop' t, seg.abandon (α := α) stop dir = (.error stop', t) ∧ dir.SameNames t := by
  unfold abandon
  split_ifs
  · exact ⟨_, _, rfl, .refl dir⟩
  · exact ⟨_, _, rfl, (flushBuf_stays (dir, seg)).1⟩

theorem remove_leads {dir : Dir} {seg : Segment} (there : seg.baseIndex ∈ dir.names) :
    Fallible.Leads seg.remove dir (fun t => dir.Fails ∧ dir.SameNames t)
      fun _ => dir.Later seg.baseIndex := by
  have removal := Dir.removeFile_leads there
  rw [Fallible.Leads] at removal
  rw [Fallible.Leads, remove]
  rcases ran : Dir.removeFile seg.baseIndex dir with ⟨stop | ⟨⟩, t⟩ <;> rw [ran] at removal
  · obtain ⟨stop', u, dropped, same⟩ := seg.abandon_names (α := Unit) stop t
    simp only [dropped]
    exact ⟨removal.1, removal.2.trans same⟩
  · exact removal

theorem writeAll_stays (bytes : Bytes) : Fallible.Keeps Stays (writeAll bytes) := by
  have held : Fallible.Keeps Stays (buffered bytes) := fun s => ⟨.refl _, rfl, rfl⟩
  have direct : Fallible.Keeps Stays (writeFile bytes) := fun s => ⟨Dir.write_names _ _ _, rfl, rfl⟩
  refine .bind Stays.trans (.get .refl) fun (_, seg) => ?_
  dsimp only
  split_ifs with fits long
  · exact held
  all_goals
    refine .bind Stays.trans ?_ fun _ => by assumption
    rw [Fallible.when]
    split_ifs
    · exact flushBuf_stays
    · exact .pure .refl ()

theorem writeParts_stays (parts : List Bytes) : Fallible.Keeps Stays (writeParts parts) := by
  induction parts with
  | nil => exact .pure .refl ()
  | cons part parts ih => exact .bind Stays.trans (writeAll_stays part) fun _ => ih

theorem sync_stays : Fallible.Keeps Stays sync :=
  .bind Stays.trans flushBuf_stays fun _ => .bind Stays.trans (.get .refl) fun (_, seg) (dir, _) =>
    ⟨Dir.syncAll_names seg.baseIndex dir, rfl, rfl⟩

section Records
variable [Checksum]

theorem append_stays (payload : Bytes) (s : Dir × Segment) :
    Fallible.Leads (append payload) s (Stays s) fun _ t => Dir.SameNames s.1 t.1 :=
  ((writeParts_stays (recordParts payload)).leads s).bind fun _ _ stays => stays.1

theorem appendAll_names (records : List Bytes) (s : Dir × Segment) :
    Fallible.Leads (Log.appendAll records) s (fun t => Dir.SameNames s.1 t.1)
      fun _ t => Dir.SameNames s.1 t.1 := by
  induction records generalizing s with
  | nil => exact Dir.SameNames.refl s.1
  | cons payload records ih =>
    refine ((append_stays payload s).mono fun _ stays => stays.1).bind fun _ t first => ?_
    exact (ih t).weaken (fun _ => first.trans) fun _ _ => first.trans

end Records

/-- The index behind the last record. -/
def next (seg : Segment) : Nat := seg.baseIndex + seg.count

end Segment

namespace Log
variable {log log' : Log}

theorem onLast_leads {α : Type} {m : Segment.Method α} {front : List Segment} {seg : Segment}
    {stopped : Dir × Segment → Prop} {returned : α → Dir × Segment → Prop}
    (last : log.segments = front ++ [seg]) (leads : Fallible.Leads m (log.dir, seg) stopped returned) :
    Fallible.Leads (onLast m) log
      (fun t => ∃ dir seg', stopped (dir, seg') ∧ t = { log with dir, segments := front ++ [seg'] })
      fun a t => ∃ dir seg', returned a (dir, seg') ∧
        t = { log with dir, segments := front ++ [seg'] } := by
  have there : log.segments.getLast? = some seg := by rw [last, List.getLast?_concat]
  rw [Fallible.Leads] at leads
  rw [Fallible.Leads, onLast, there, last, List.dropLast_concat]
  rcases ran : m (log.dir, seg) with ⟨_ | a, dir, seg'⟩ <;> rw [ran] at leads <;>
    simp only [ran] <;> exact ⟨dir, seg', leads, rfl⟩

theorem onFresh_leads {m : Segment.Method Unit} {seg : Segment} {stopped : Dir × Segment → Prop}
    {returned : Unit → Dir × Segment → Prop} (leads : Fallible.Leads m (log.dir, seg) stopped returned) :
    Fallible.Leads (onFresh m seg) log
      (fun t => ∃ u dir, stopped u ∧ u.1.SameNames dir ∧ t = { log with dir })
      fun seg' t => ∃ dir, returned () (dir, seg') ∧ t = { log with dir } := by
  rw [Fallible.Leads] at leads
  rw [Fallible.Leads, onFresh]
  rcases ran : m (log.dir, seg) with ⟨stop | ⟨⟩, dir, seg'⟩ <;> rw [ran] at leads
  · obtain ⟨stop', t, dropped, same⟩ := seg'.abandon_names (α := Segment) stop dir
    simp only [dropped]
    exact ⟨_, t, leads, same, rfl⟩
  · exact ⟨dir, leads, rfl⟩

def bases (log : Log) : List Nat := log.segments.map Segment.baseIndex

/-- The files that are there are those of the listed segments. -/
structure Matched (log : Log) : Prop where
  distinct : log.dir.names.Nodup
  files : log.dir.names.Perm log.bases

/-- What `Log` relies on. There is a first and a last segment, so that the list is not empty. -/
structure Represented (log : Log) : Prop extends log.Matched where
  first : log.bases.head? = some log.firstIndex
  last : log.segments.getLast?.map Segment.next = some (log.lastIndex + 1)

/-- There is a file more than segments. -/
def Orphaned (log : Log) : Prop := log.dir.names.length = log.segments.length + 1

theorem Orphaned.not_matched (orphaned : log.Orphaned) : ¬ log.Matched := by
  intro matched
  have same := matched.files.length_eq
  rw [orphaned, bases, List.length_map] at same
  omega

theorem Matched.same_names (matched : log.Matched) {dir : Dir} (same : log.dir.SameNames dir) :
    { log with dir }.Matched :=
  ⟨same.symm ▸ matched.distinct, same.symm ▸ matched.files⟩

theorem Represented.same_names (rep : log.Represented) {dir : Dir} (same : log.dir.SameNames dir) :
    { log with dir }.Represented :=
  ⟨rep.toMatched.same_names same, rep.first, rep.last⟩

theorem Represented.split (rep : log.Represented) :
    ∃ front seg, log.segments = front ++ [seg] ∧ seg.next = log.lastIndex + 1 := by
  obtain ⟨seg, there, ends⟩ := Option.map_eq_some_iff.mp rep.last
  obtain ⟨front, split⟩ := List.getLast?_eq_some_iff.mp there
  exact ⟨front, seg, split, ends⟩

theorem Represented.relast (rep : log.Represented) {front : List Segment} {seg seg' : Segment}
    {dir : Dir} (split : log.segments = front ++ [seg])
    (stays : Segment.Stays (log.dir, seg) (dir, seg')) :
    { log with dir, segments := front ++ [seg'] }.Represented := by
  have same : bases { log with dir, segments := front ++ [seg'] } = log.bases := by
    have base : seg'.baseIndex = seg.baseIndex := stays.2.1
    simp only [bases, split, List.map_append, List.map_cons, base]
  have ends : seg'.next = seg.next := congrArg₂ (· + ·) stays.2.1 stays.2.2
  have names : dir.names = log.dir.names := stays.1
  have last := rep.last
  rw [split, List.getLast?_concat, Option.map_some, ← ends] at last
  refine ⟨⟨?_, ?_⟩, ?_, ?_⟩
  · exact names ▸ rep.distinct
  · rw [same]
    exact names ▸ rep.files
  · rw [same]
    exact rep.first
  · rw [List.getLast?_concat]
    exact last

theorem Represented.pushed (rep : log.Represented) {dir : Dir}
    (absent : log.lastIndex + 1 ∉ log.dir.names)
    (names : dir.names = log.dir.names ++ [log.lastIndex + 1]) :
    Represented { log with dir, segments := log.segments ++ [⟨log.lastIndex + 1, [], 0, 0⟩] } := by
  have listed : bases { log with dir, segments := log.segments ++ [⟨log.lastIndex + 1, [], 0, 0⟩] } =
      log.bases ++ [log.lastIndex + 1] := List.map_append
  refine ⟨⟨?_, ?_⟩, ?_, ?_⟩
  · rw [names, ← List.concat_eq_append]
    exact rep.distinct.concat absent
  · rw [listed, names]
    exact rep.files.append_right _
  · rw [listed, List.head?_append, rep.first]
    rfl
  · rw [List.getLast?_concat]
    rfl

section Records
variable [Checksum]

theorem append_represented (rep : log.Represented) (payload : Bytes) :
    Fallible.Leads (append payload) log Represented fun _ _ => True := by
  obtain ⟨front, active, split, ends⟩ := rep.split
  have last : log.segments.getLast? = some active := by rw [split, List.getLast?_concat]
  refine Fallible.Leads.get_bind ?_
  rw [last]
  have rotation : Fallible.Leads (do
      let seg ← onDir (Segment.create (log.lastIndex + 1))
      push seg : Method Unit) log Represented fun _ => Represented := by
    refine ((Segment.create_leads (log.lastIndex + 1) log.dir).part.mono ?_).bind ?_
    · rintro t ⟨dir, same, rfl⟩
      exact rep.same_names same
    · rintro seg t ⟨dir, ⟨rfl, absent, names⟩, rfl⟩
      exact rep.pushed absent names
  have rotated : Fallible.Leads (Fallible.when (log.maxSegmentBytes ≤ active.bytes ∧ 0 < active.count) do
      let seg ← onDir (Segment.create (log.lastIndex + 1))
      push seg) log Represented fun _ => Represented := by
    rw [Fallible.when]
    split_ifs
    · exact rotation
    · exact rep
  refine rotated.bind ?_
  intro _ t rep'
  obtain ⟨front', seg, split', _⟩ := rep'.split
  refine ((onLast_leads split' (Segment.append_stays payload _)).mono ?_).bind fun _ _ _ => trivial
  rintro u ⟨dir, seg', stays, rfl⟩
  exact rep'.relast split' stays

end Records

theorem remove_leads (matched : log.Matched) {seg : Segment} {rest : List Segment}
    (listed : log.bases.Perm (seg.baseIndex :: rest.map Segment.baseIndex)) :
    Fallible.Leads (onDir seg.remove) { log with segments := rest }
      (fun t => log.dir.Fails ∧ t.Orphaned)
      fun _ t => t.Matched ∧ ∃ dir, log.dir.Later seg.baseIndex dir ∧
        t = { log with dir, segments := rest } := by
  have files := matched.files.trans listed
  have there : seg.baseIndex ∈ log.dir.names := files.mem_iff.mpr List.mem_cons_self
  have removal : Fallible.Leads (onDir seg.remove) { log with segments := rest }
      (fun t => ∃ dir, (log.dir.Fails ∧ log.dir.SameNames dir) ∧
        t = { log with dir, segments := rest })
      fun _ t => ∃ dir, log.dir.Later seg.baseIndex dir ∧ t = { log with dir, segments := rest } :=
    Fallible.Leads.part (Segment.remove_leads there)
  refine removal.weaken ?_ ?_
  · rintro t ⟨dir, ⟨fails, same⟩, rfl⟩
    refine ⟨fails, ?_⟩
    have names : dir.names = log.dir.names := same
    rw [Orphaned, names, files.length_eq, List.length_cons, List.length_map]
  · rintro _ t ⟨dir, later, rfl⟩
    refine ⟨⟨?_, ?_⟩, dir, later, rfl⟩
    · rw [later.names]
      exact matched.distinct.filter _
    · have apart := (List.nodup_cons.mp (files.nodup_iff.mp matched.distinct)).1
      have kept : (seg.baseIndex :: rest.map Segment.baseIndex).filter (· ≠ seg.baseIndex) =
          rest.map Segment.baseIndex := by
        rw [List.filter_cons_of_neg (by simp), List.filter_eq_self]
        intro base member
        rw [decide_eq_true_eq]
        rintro rfl
        exact apart member
      have left := files.filter (· ≠ seg.baseIndex)
      rw [kept, ← later.names] at left
      exact left

theorem dropLeading_leads (upTo fuel : Nat) (matched : log.Matched) (some_segment : log.segments ≠ []) :
    Fallible.Leads (dropLeading upTo fuel) log Orphaned fun _ t => t.segments ≠ [] := by
  induction fuel generalizing log with
  | zero => exact some_segment
  | succ fuel ih =>
    refine Fallible.Leads.get_bind ?_
    rcases listed : log.segments with _ | ⟨seg, _ | ⟨next, rest⟩⟩
    · exact some_segment
    · exact some_segment
    · dsimp only
      split_ifs
      · have first : log.bases.Perm
            (seg.baseIndex :: (next :: rest).map Segment.baseIndex) := by
          rw [bases, listed]
          exact .refl _
        refine Fallible.Leads.modify_bind (((remove_leads matched first).mono fun _ => And.right).bind ?_)
        rintro _ t ⟨matched', dir, _, rfl⟩
        exact ih matched' (List.cons_ne_nil _ _)
      · exact some_segment

theorem truncatePrefix_orphans (rep : log.Represented) (upTo : Nat) :
    Fallible.Leads (truncatePrefix upTo) log Orphaned fun _ _ => True := by
  obtain ⟨front, seg, split, _⟩ := rep.split
  have some_segment : log.segments ≠ [] := by
    rw [split]
    exact List.append_ne_nil_of_right_ne_nil _ (List.cons_ne_nil _ _)
  refine Fallible.Leads.get_bind ((dropLeading_leads upTo _ rep.toMatched some_segment).bind ?_)
  intro _ t some_segment'
  refine Fallible.Leads.get_bind ?_
  rcases listed : t.segments with _ | ⟨first, rest⟩
  · exact absurd listed some_segment'
  · trivial

/-- The segments that begin past the cut. The first one is never deleted. -/
def behind (keepLast : Nat) (log : Log) : List Segment :=
  log.segments.tail.rtakeWhile (keepLast < ·.baseIndex)

theorem split_behind (keepLast : Nat) (some_segment : log.segments ≠ []) : ∃ front seg,
    log.segments = front ++ [seg] ++ log.behind keepLast ∧
      (∀ x ∈ log.behind keepLast, keepLast < x.baseIndex) ∧
      (front = [] ∨ seg.baseIndex ≤ keepLast) := by
  obtain ⟨first, rest, listed⟩ := List.exists_cons_of_ne_nil some_segment
  have past : ∀ x ∈ log.behind keepLast, keepLast < x.baseIndex := by
    intro x member
    have later := List.mem_rtakeWhile_imp (p := fun x : Segment => decide (keepLast < x.baseIndex)) member
    exact of_decide_eq_true later
  have whole : log.segments =
      first :: (rest.rdropWhile (keepLast < ·.baseIndex) ++ log.behind keepLast) := by
    rw [behind, listed, List.tail_cons, List.rdropWhile_append_rtakeWhile]
  rcases List.eq_nil_or_concat' (rest.rdropWhile (keepLast < ·.baseIndex)) with
    none | ⟨front, seg, split⟩
  · refine ⟨[], first, ?_, past, .inl rfl⟩
    rw [none] at whole
    exact whole
  · refine ⟨first :: front, seg, ?_, past, .inr (Nat.le_of_not_lt fun later => ?_)⟩
    · rw [split] at whole
      exact whole
    · have stays := List.rdropWhile_last_not (fun x : Segment => decide (keepLast < x.baseIndex)) rest
        (by rw [split]; exact List.append_ne_nil_of_right_ne_nil _ (List.cons_ne_nil _ _))
      simp only [split, List.getLast_concat] at stays
      exact stays (decide_eq_true later)

/-- The segments that begin past the cut are deleted, from the last one on, until a deletion
fails. -/
theorem dropTrailing_leads {keepLast fuel : Nat} {front trailing : List Segment} {seg : Segment}
    (matched : log.Matched) (split : log.segments = front ++ [seg] ++ trailing)
    (past : ∀ x ∈ trailing, keepLast < x.baseIndex) (stays : front = [] ∨ seg.baseIndex ≤ keepLast)
    (enough : trailing.length < fuel) :
    Fallible.Leads (dropTrailing keepLast fuel) log
      (fun t => ¬ Dir.GoesWell trailing.length log.dir.outcomes ∧ t.Orphaned)
      fun _ t => Dir.GoesWell trailing.length log.dir.outcomes ∧ t.Matched ∧ ∃ dir,
        dir.outcomes = log.dir.outcomes.drop trailing.length ∧
        dir.find seg.baseIndex = log.dir.find seg.baseIndex ∧
        t = { log with dir, segments := front ++ [seg] } := by
  induction trailing using List.reverseRecOn generalizing log fuel with
  | nil =>
    obtain ⟨fuel, rfl⟩ := Nat.exists_eq_add_one_of_ne_zero (Nat.ne_zero_of_lt enough)
    rw [List.append_nil] at split
    have kept : ¬ (1 < log.segments.length ∧ keepLast < seg.baseIndex) := by
      rintro ⟨several, later⟩
      rcases stays with rfl | inside
      · rw [split] at several
        exact absurd several (Nat.lt_irrefl 1)
      · exact Nat.not_lt.mpr inside later
    have last : log.segments.getLast? = some seg := by rw [split, List.getLast?_concat]
    refine Fallible.Leads.get_bind ?_
    rw [last]
    dsimp only
    rw [if_neg kept]
    refine ⟨by simp [Dir.GoesWell], matched, log.dir, rfl, rfl, ?_⟩
    rw [← split]
  | append_singleton trailing x ih =>
    obtain ⟨fuel, rfl⟩ := Nat.exists_eq_add_one_of_ne_zero (Nat.ne_zero_of_lt enough)
    rw [List.length_append, List.length_singleton] at enough ⊢
    rw [← List.append_assoc] at split
    have last : log.segments.getLast? = some x := by rw [split, List.getLast?_concat]
    have shorter : log.segments.dropLast = front ++ [seg] ++ trailing := by
      rw [split, List.dropLast_concat]
    have goes : 1 < log.segments.length ∧ keepLast < x.baseIndex := by
      refine ⟨?_, past x (by simp)⟩
      rw [split]
      simp only [List.length_append, List.length_singleton]
      omega
    have back : log.bases.Perm (x.baseIndex :: (front ++ [seg] ++ trailing).map Segment.baseIndex) := by
      rw [bases, split, List.map_append]
      exact List.perm_append_singleton _ _
    have apart : seg.baseIndex ≠ x.baseIndex := by
      have distinct := (back.nodup_iff.mp (matched.files.nodup_iff.mp matched.distinct))
      intro same
      exact (List.nodup_cons.mp distinct).1 (List.mem_map.mpr ⟨seg, by simp, same⟩)
    have counts : Dir.GoesWell (trailing.length + 1) log.dir.outcomes ↔
        ¬ log.dir.Fails ∧ Dir.GoesWell trailing.length (log.dir.outcomes.drop 1) :=
      Dir.goesWell_succ trailing.length
    refine Fallible.Leads.get_bind ?_
    rw [last]
    dsimp only
    rw [if_pos goes]
    refine Fallible.Leads.modify_bind ?_
    rw [shorter]
    refine ((remove_leads matched back).mono ?_).bind ?_
    · rintro t ⟨fails, orphaned⟩
      exact ⟨fun well => (counts.mp well).1 fails, orphaned⟩
    · rintro _ t ⟨matched', dir, later, rfl⟩
      have held : Matched { log with dir, segments := front ++ [seg] ++ trailing } := matched'
      have more := ih held rfl
        (fun y member => past y (List.mem_append_left _ member)) (Nat.lt_of_succ_lt_succ enough)
      rw [later.outcomes] at more
      refine more.weaken ?_ ?_
      · rintro u ⟨bad, orphaned⟩
        exact ⟨fun well => bad (counts.mp well).2, orphaned⟩
      · rintro _ u ⟨well, matched'', dir', outcomes, found, rfl⟩
        refine ⟨counts.mpr ⟨later.succeeds, well⟩, matched'', dir', ?_, ?_, rfl⟩
        · rw [outcomes, List.drop_drop, Nat.add_comm]
        · exact found.trans (later.find _ apart)

section Records
variable [Checksum]

/-- Reading the file fails, or one of its records up to the cut is not whole. -/
def Unreadable (keepLast : Nat) (dir : Dir) (seg : Segment) : Prop :=
  dir.Fails ∨ ∃ file ∈ dir.find seg.baseIndex,
    (survivors keepLast seg.baseIndex
      (Segment.items (file.content.length + 1) ⟨file.content, []⟩)).toOption = none

/-- The segments past the cut can be deleted, the one that it falls into cannot be read, and that
is the one the log ends in. -/
def Spared (keepLast : Nat) (log : Log) : Prop :=
  Dir.GoesWell (log.behind keepLast).length log.dir.outcomes ∧
    ∃ seg ∈ (log.segments.rdrop (log.behind keepLast).length).getLast?,
      Unreadable keepLast
        { log.dir with outcomes := log.dir.outcomes.drop (log.behind keepLast).length } seg ∧
      seg.next = log.lastIndex + 1

theorem spared_iff {keepLast : Nat} {front : List Segment} {seg : Segment}
    (split : log.segments = front ++ [seg] ++ log.behind keepLast) : log.Spared keepLast ↔
      Dir.GoesWell (log.behind keepLast).length log.dir.outcomes ∧ Unreadable keepLast
        { log.dir with outcomes := log.dir.outcomes.drop (log.behind keepLast).length } seg ∧
      seg.next = log.lastIndex + 1 := by
  have last : (log.segments.rdrop (log.behind keepLast).length).getLast? = some seg := by
    rw [split, List.rdrop, List.length_append, Nat.add_sub_cancel, List.take_left,
      List.getLast?_concat]
  simp only [Spared, last, Option.mem_some_iff, exists_eq_left']

theorem iter_leads (keepLast : Nat) {dir : Dir} {seg : Segment} (there : seg.baseIndex ∈ dir.names) :
    Fallible.Leads seg.iter dir (fun t => Unreadable keepLast dir seg ∧ dir.SameNames t)
      fun items t => (Unreadable keepLast dir seg ↔
        (survivors keepLast seg.baseIndex items).toOption = none) ∧ dir.SameNames t := by
  obtain ⟨file, found⟩ := Dir.find_of_name there
  rcases Dir.attempt_goes dir with ⟨ready, _⟩ | ⟨stop, outcomes, stopped, _⟩
  · rw [Fallible.Leads, Segment.iter, Fallible.bind_ok (Dir.read_run ready found)]
    refine ⟨?_, .refl dir⟩
    rw [Unreadable, or_iff_right ready.not_fails]
    simp only [found, Option.mem_some_iff, exists_eq_left']
  · have refused : seg.iter dir = (.error stop, { dir with outcomes }) :=
      Fallible.bind_error (Fallible.bind_error (Dir.existing_stopped stopped))
    rw [Fallible.Leads, refused]
    exact ⟨.inl (Dir.fails_of_stopped stopped), .refl dir⟩

/-- What a segment that could not be written again leaves: its file without the segment, or
neither. -/
def Gone (log : Log) (front : List Segment) (t : Log) : Prop :=
  t.Orphaned ∨ t.segments = front ∧ t.lastIndex = log.lastIndex

theorem refill_leads {front : List Segment} {base : Nat} {dir : Dir} {kept : List Bytes}
    (matched : Matched { log with dir, segments := front }) :
    Fallible.Leads (do
      let fresh ← onDir (Segment.create base)
      let fresh ← onFresh (appendAll kept) fresh
      let fresh ← onFresh Segment.sync fresh
      push fresh : Method Unit) { log with dir, segments := front }
      (log.Gone front) fun _ _ => True := by
  have count : dir.names.length = front.length := by
    have same := matched.files.length_eq
    rwa [bases, List.length_map] at same
  have orphan : ∀ dir', dir'.names = dir.names ++ [base] →
      log.Gone front { log with dir := dir', segments := front } := by
    intro dir' names
    left
    rw [Orphaned, names, List.length_append, count]
    rfl
  have creation : Fallible.Leads (onDir (Segment.create base)) { log with dir, segments := front }
      (log.Gone front) fun _ t => ∃ dir', dir'.names = dir.names ++ [base] ∧
        t = { log with dir := dir', segments := front } := by
    refine (Fallible.Leads.part (Segment.create_leads base dir)).weaken ?_ ?_
    · rintro _ ⟨dir', same, rfl⟩
      exact .inr ⟨rfl, rfl⟩
    · rintro fresh _ ⟨dir', ⟨_, _, names⟩, rfl⟩
      exact ⟨dir', names, rfl⟩
  refine creation.bind ?_
  rintro fresh _ ⟨dir₁, names₁, rfl⟩
  refine ((onFresh_leads (Segment.appendAll_names kept _)).mono ?_).bind ?_
  · rintro _ ⟨u, dir', same, dropped, rfl⟩
    exact orphan _ (Eq.trans dropped (Eq.trans same names₁))
  · rintro fresh _ ⟨dir₂, same, rfl⟩
    have names₂ : dir₂.names = dir.names ++ [base] := Eq.trans same names₁
    refine ((onFresh_leads (Segment.sync_stays.leads _)).mono ?_).bind fun _ _ _ => trivial
    rintro _ ⟨u, dir', stays, dropped, rfl⟩
    exact orphan _ (Eq.trans dropped (Eq.trans stays.1 names₂))

theorem rewriteLast_leads {keepLast : Nat} {front : List Segment} {seg : Segment}
    (matched : log.Matched) (split : log.segments = front ++ [seg]) :
    Fallible.Leads (rewriteLast keepLast) log
      (fun t => Unreadable keepLast log.dir seg ∧
          (∃ dir, log.dir.SameNames dir ∧ t = { log with dir }) ∨
        ¬ Unreadable keepLast log.dir seg ∧ log.Gone front t) fun _ _ => True := by
  have last : log.segments.getLast? = some seg := by rw [split, List.getLast?_concat]
  have shorter : log.segments.dropLast = front := by rw [split, List.dropLast_concat]
  have back : log.bases.Perm (seg.baseIndex :: front.map Segment.baseIndex) := by
    rw [bases, split, List.map_append]
    exact List.perm_append_singleton _ _
  have there : seg.baseIndex ∈ log.dir.names :=
    (matched.files.trans back).mem_iff.mpr List.mem_cons_self
  refine Fallible.Leads.get_bind ?_
  rw [last]
  dsimp only
  refine (Fallible.Leads.part (iter_leads keepLast there)).mono ?_ |>.bind ?_
  · rintro _ ⟨dir, ⟨unreadable, same⟩, rfl⟩
    exact .inl ⟨unreadable, dir, same, rfl⟩
  rintro items _ ⟨dir, ⟨unreadable, same⟩, rfl⟩
  rcases survived : survivors keepLast seg.baseIndex items with error | kept <;>
    rw [survived] at unreadable
  · exact .inl ⟨unreadable.mpr rfl, dir, same, rfl⟩
  · have readable : ¬ Unreadable keepLast log.dir seg := fun none => by cases unreadable.mp none
    refine Fallible.Leads.ok_bind (Fallible.Leads.modify_bind ?_)
    rw [shorter]
    have removing := remove_leads (matched.same_names same) back
    refine (removing.mono ?_).bind ?_
    · rintro t ⟨_, orphaned⟩
      exact .inr ⟨readable, .inl orphaned⟩
    · rintro _ _ ⟨matched', dir', _, rfl⟩
      have matched' : Matched { log with dir := dir', segments := front } := matched'
      exact (refill_leads matched').mono fun t gone => .inr ⟨readable, gone⟩

/-- What a truncation that fails leaves: a file without a segment, where a deletion fails; or
fewer segments with their files, the last one still to be read; or what is left once the last
one is taken off. -/
inductive Halted (log : Log) (keepLast : Nat) (front : List Segment) (seg : Segment) (t : Log) : Prop where
  | undeleted (bad : ¬ Dir.GoesWell (log.behind keepLast).length log.dir.outcomes)
      (orphaned : t.Orphaned)
  | unread (well : Dir.GoesWell (log.behind keepLast).length log.dir.outcomes)
      (unreadable : Unreadable keepLast
        { log.dir with outcomes := log.dir.outcomes.drop (log.behind keepLast).length } seg)
      (matched : t.Matched) (segments : t.segments = front ++ [seg])
      (first : t.firstIndex = log.firstIndex) (last : t.lastIndex = log.lastIndex)
  | gone (readable : ¬ Unreadable keepLast
        { log.dir with outcomes := log.dir.outcomes.drop (log.behind keepLast).length } seg)
      (left : log.Gone front t)

theorem truncateSuffix_leads {keepLast : Nat} {front : List Segment} {seg : Segment}
    (matched : log.Matched) (split : log.segments = front ++ [seg] ++ log.behind keepLast)
    (past : ∀ x ∈ log.behind keepLast, keepLast < x.baseIndex)
    (stays : front = [] ∨ seg.baseIndex ≤ keepLast) :
    Fallible.Leads (truncateSuffix keepLast) log
      (fun t => keepLast + 1 < log.firstIndex ∧ t = log ∨
        ¬ keepLast + 1 < log.firstIndex ∧ keepLast < log.lastIndex ∧ log.Halted keepLast front seg t)
      fun _ _ => True := by
  refine Fallible.Leads.get_bind ?_
  split_ifs with within compacted
  · trivial
  · exact .inl ⟨compacted, rfl⟩
  · have cut := Nat.not_le.mp within
    have enough : (log.behind keepLast).length < log.segments.length := by
      have length := congrArg List.length split
      simp only [List.length_append, List.length_singleton] at length
      omega
    refine ((dropTrailing_leads matched split past stays enough).mono ?_).bind ?_
    · rintro t ⟨bad, orphaned⟩
      exact .inr ⟨compacted, cut, .undeleted bad orphaned⟩
    · rintro _ _ ⟨well, matched', dir, outcomes, found, rfl⟩
      have same : Unreadable keepLast dir seg ↔ Unreadable keepLast
          { log.dir with outcomes := log.dir.outcomes.drop (log.behind keepLast).length } seg := by
        rw [Unreadable, Unreadable, Dir.Fails, Dir.Fails, outcomes, found]
        rfl
      refine ((rewriteLast_leads matched' rfl).mono ?_).bind fun _ _ _ => trivial
      rintro t (⟨unreadable, dir', names, rfl⟩ | ⟨readable, gone⟩)
      · exact .inr ⟨compacted, cut, .unread well (same.mp unreadable) (matched'.same_names names)
          rfl rfl rfl⟩
      · exact .inr ⟨compacted, cut, .gone (fun unreadable => readable (same.mpr unreadable)) gone⟩

end Records

/-- The segments do not reach into each other. -/
def Apart (log : Log) : Prop :=
  log.segments.Pairwise fun seg later => seg.next ≤ later.baseIndex

section Records
variable [Checksum] {keepLast : Nat} {front : List Segment} {seg : Segment} {t : Log}

namespace Halted

theorem represented (halted : log.Halted keepLast front seg t) (rep : log.Represented)
    (split : log.segments = front ++ [seg] ++ log.behind keepLast) (spared : log.Spared keepLast) :
    t.Represented := by
  obtain ⟨well, unreadable, ends⟩ := (spared_iff split).mp spared
  cases halted with
  | undeleted bad _ => exact absurd well bad
  | unread _ _ matched segments first last =>
    refine ⟨matched, ?_, ?_⟩
    · have start := rep.first
      rw [bases, split, List.map_append, List.head?_append_of_ne_nil _ (by simp)] at start
      rw [bases, segments, first]
      exact start
    · rw [segments, List.getLast?_concat, Option.map_some, ends, last]
  | gone readable _ => exact absurd unreadable readable

theorem spared (halted : log.Halted keepLast front seg t) (apart : log.Apart)
    (split : log.segments = front ++ [seg] ++ log.behind keepLast)
    (stays : front = [] ∨ seg.baseIndex ≤ keepLast) (cut : keepLast < log.lastIndex)
    (rep : t.Represented) : log.Spared keepLast := by
  obtain ⟨front', last', split', ends⟩ := rep.split
  cases halted with
  | undeleted _ orphaned => exact absurd rep.toMatched orphaned.not_matched
  | unread well unreadable _ segments _ last =>
    refine (spared_iff split).mpr ⟨well, unreadable, ?_⟩
    rw [segments] at split'
    have same : seg = last' := (List.cons.inj (List.append_inj' split' rfl).2).1
    rw [same, ends, last]
  | gone _ left =>
    rcases left with orphaned | ⟨segments, last⟩
    · exact absurd rep.toMatched orphaned.not_matched
    · rw [segments] at split'
      rcases stays with rfl | inside
      · exact absurd split'.symm (List.append_ne_nil_of_right_ne_nil _ (List.cons_ne_nil _ _))
      · rw [Apart, split, split', List.append_assoc] at apart
        have below := (List.pairwise_append.mp apart).2.2 last' (by simp) seg (by simp)
        omega

end Halted

end Records

section Records
variable [Checksum] {lead chunks : List Chunk} {active : Chunk}

theorem apart_of_contiguous {first : Nat} (contiguous : Contiguous first chunks) :
    (chunks.map Chunk.segment).Pairwise fun seg later => seg.next ≤ later.baseIndex := by
  induction chunks generalizing first with
  | nil => exact .nil
  | cons c chunks ih =>
    refine .cons ?_ (ih contiguous.2)
    intro seg member
    obtain ⟨x, inside, rfl⟩ := List.mem_map.mp member
    have above := (contiguous.2.within inside).1
    have start := contiguous.1
    rw [Segment.next, c.count]
    rw [← start] at above
    exact above

theorem Laid.represented (laid : log.Laid lead active) : log.Represented ∧ log.Apart := by
  have listed : log.bases = log.dir.names := by
    rw [Log.bases, laid.segments, List.map_map]
    exact laid.bases.symm
  obtain ⟨c, head, start⟩ := laid.starts
  refine ⟨⟨⟨laid.distinct, listed ▸ .refl _⟩, ?_, ?_⟩, ?_⟩
  · rw [listed, Dir.names, laid.bases, List.head?_map, head]
    exact congrArg some start
  · have last := laid.last
    have base := laid.contiguous.active_base
    rw [flat_append, List.length_append, flat_cons, flat_nil, List.append_nil] at last
    have ends : active.base + active.records.length = log.lastIndex + 1 := by omega
    rw [laid.getLast, Option.map_some, Segment.next, active.count]
    exact congrArg some ends
  · rw [Apart, laid.segments]
    exact apart_of_contiguous laid.contiguous

end Records

/-- The calls that change which segments there are. -/
inductive Edit where
  | append (payload : Bytes)
  | truncatePrefix (upTo : Nat)
  | truncateSuffix (keepLast : Nat)
  deriving DecidableEq, Repr

section Records
variable [Checksum]

def Edit.run : Edit → Method Unit
  | .append payload => do
    let _ ← Log.append payload
  | .truncatePrefix upTo => Log.truncatePrefix upTo
  | .truncateSuffix keepLast => Log.truncateSuffix keepLast

/-- Whether a call that fails does no harm: an append never does, cutting off the front always,
and cutting off the end unless it is rejected or stops in reading the segment the log ends in. -/
def Edit.Harmless (log : Log) : Edit → Prop
  | .append _ => True
  | .truncatePrefix _ => False
  | .truncateSuffix keepLast => keepLast + 1 < log.firstIndex ∨ log.Spared keepLast

/-- A call that fails keeps what the log relies on if it is harmless, and where the segments do not
reach into each other only then. -/
theorem failed_edit_represented (rep : log.Represented) (edit : Edit) {stop : Stop}
    (failed : edit.run log = (.error stop, log')) :
    (edit.Harmless log → log'.Represented) ∧
      (log.Apart → log'.Represented → edit.Harmless log) := by
  cases edit with
  | append payload =>
    have leads : Fallible.Leads (Edit.append payload).run log Represented fun _ _ => True :=
      (append_represented rep payload).bind fun _ _ _ => trivial
    exact ⟨fun _ => leads.stops failed, fun _ _ => trivial⟩
  | truncatePrefix upTo =>
    have orphaned := (truncatePrefix_orphans rep upTo).stops failed
    exact ⟨False.elim, fun _ rep' => absurd rep'.toMatched orphaned.not_matched⟩
  | truncateSuffix keepLast =>
    have some_segment : log.segments ≠ [] := by
      obtain ⟨front, seg, split, _⟩ := rep.split
      rw [split]
      exact List.append_ne_nil_of_right_ne_nil _ (List.cons_ne_nil _ _)
    obtain ⟨front, seg, split, past, stays⟩ := split_behind keepLast some_segment
    rcases (truncateSuffix_leads rep.toMatched split past stays).stops failed with
      ⟨rejected, rfl⟩ | ⟨accepted, cut, halted⟩
    · exact ⟨fun _ => rep, fun _ _ => .inl rejected⟩
    · rw [Edit.Harmless, or_iff_right accepted]
      exact ⟨halted.represented rep split, fun apart => halted.spared apart split stays cut⟩

end Records

/-- One full segment; no further file can be created. -/
def full : Log :=
  ⟨⟨"wal", [(1, ⟨frame [1], 9⟩)], [], [.failed 0 "No space left on device"]⟩, 9,
    [⟨1, [], 9, 1⟩], 1, 1⟩

theorem failed_edit_represented_rotation : ∃ log',
    (Edit.append [2]).run full = (.error (.err (.io "No space left on device")), log') ∧
      log'.Represented := by
  have rep : full.Represented :=
    ⟨⟨List.nodup_singleton 1, .refl [1]⟩, rfl, rfl⟩
  have failed : (Edit.append [2]).run full =
      (.error (.err (.io "No space left on device")),
        { full with dir := { full.dir with outcomes := [] } }) := by
    decide +kernel
  exact ⟨_, failed, (failed_edit_represented rep (.append [2]) failed).1 trivial⟩

/-- Two records in one segment, and a directory in which the third operation fails. -/
def crowded : Log :=
  ⟨⟨"wal", [(1, ⟨frame [1] ++ frame [2], 18⟩)], [],
    [.done, .done, .failed 0 "No space left on device"]⟩, 1000, [⟨1, [], 18, 2⟩], 1, 2⟩

/-- Two segments, and a directory in which the next operation fails. -/
def stuck : Log :=
  ⟨⟨"wal", [(1, ⟨frame [1], 9⟩), (2, ⟨frame [2], 9⟩)], [], [.failed 0 "Permission denied"]⟩, 9,
    [⟨1, [], 9, 1⟩, ⟨2, [], 9, 1⟩], 1, 2⟩

/-- The segment that was to be written again cannot be created: no segment is left, and the next
append panics. Or the first segment cannot be deleted: it is off the list, its file is still
there and the first index is still its base. -/
theorem failed_truncations_break :
    (crowded.Represented ∧ ∃ log', Log.truncateSuffix 1 crowded =
        (.error (.err (.io "No space left on device")), log') ∧ log'.segments = [] ∧
        (Log.append [3] log').1 =
          .error (.panic "called `Option::unwrap()` on a `None` value") ∧ ¬ log'.Represented) ∧
      stuck.Represented ∧ ∃ log', Log.truncatePrefix 2 stuck =
        (.error (.err (.io "Permission denied")), log') ∧ log'.bases = [2] ∧
        log'.firstIndex = 1 ∧ log'.dir.names = [1, 2] ∧ ¬ log'.Represented := by
  refine ⟨⟨⟨⟨List.nodup_singleton 1, .refl [1]⟩, rfl, rfl⟩, { crowded with
    dir := ⟨"wal", [], [], []⟩, segments := [] }, by decide +kernel, rfl, rfl, ?_⟩,
    ⟨⟨by decide, .refl [1, 2]⟩, rfl, rfl⟩, { stuck with
    dir := { stuck.dir with outcomes := [] }, segments := [⟨2, [], 9, 1⟩] }, by decide +kernel,
    rfl, rfl, rfl, ?_⟩
  · intro rep
    cases rep.first
  · intro rep
    cases rep.first

end Log
end WalKv
