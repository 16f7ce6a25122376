import WalKv.Wal.Exactness

/-! Opening a log over any directory. Every file begins with some records; the log that
opens holds these, and it does not open if a file is damaged before intact records. -/
namespace WalKv
open Framing (stream)

section Files
variable [Checksum]

/-- A segment file, whatever it holds: the records at its start and what follows them. -/
structure Scanned where
  base : Nat
  file : File
  records : List Bytes
  rest : Bytes
  run : LongestRun file.content records rest

theorem LongestRun.unreadable {bytes rest : Bytes} {records : List Bytes}
    (run : LongestRun bytes records rest) : ∀ found, (parse rest).1 ≠ .entry found := by
  intro found entry
  obtain ⟨same, small⟩ := parse_exact (Prod.ext entry rfl : parse rest = (_, (parse rest).2))
  have fits : Fits (records ++ [found]) := by
    intro payload inside
    rcases List.mem_append.mp inside with old | new
    · exact run.fits payload old
    · rw [List.mem_singleton.mp new]
      exact small
  have longer := run.longest (records ++ [found]) fits ⟨(parse rest).2, by
    rw [run.split, Framing.stream_concat, List.append_assoc, ← same]⟩
  have length := longer.length_le
  rw [List.length_append, List.length_singleton] at length
  omega

namespace Scanned
variable {dir : Dir}

/-- The rest begins with a record that fails its check, and intact records follow. -/
def Damaged (s : Scanned) : Prop := ∃ left, Interior s.rest left

/-- The segment with only the records. -/
def chunk (s : Scanned) : Chunk := .settled s.base s.records s.run.fits

theorem exists_of_file (base : Nat) (file : File) : ∃ s : Scanned, s.base = base ∧ s.file = file := by
  obtain ⟨records, rest, fits, split, unreadable⟩ := exists_run file.content
  refine ⟨⟨base, file, records, rest, split, fits, ?_⟩, rfl, rfl⟩
  intro others fits' inside
  rw [split] at inside
  exact run_longest fits unreadable fits' inside

theorem recover_sound (s : Scanned) (sound : ¬ s.Damaged) (healthy : dir.outcomes = [])
    (found : dir.find s.base = some s.file) :
    Segment.recover s.base dir = (.ok s.chunk.segment, dir.setFile s.base s.chunk.file) := by
  rcases Segment.recoverLoop_rest (segmentPath dir.path s.base) s.run.fits s.run.unreadable
    s.run.split with ⟨msg, _, damaged⟩ | ⟨scanned, _⟩
  · exact absurd (interior_iff.mpr damaged) sound
  · have within : (stream frame s.records).length ≤ s.file.content.length := by
      rw [s.run.split, List.length_append]
      omega
    rw [Segment.recover_scanned healthy found within scanned, s.run.split, List.take_left]
    rfl

theorem recover_damaged (s : Scanned) (damaged : s.Damaged) (path : String) :
    ∃ msg, ∀ dir : Dir, dir.path = path → dir.outcomes = [] → dir.find s.base = some s.file →
      Segment.recover s.base dir = (.error (.err (.corruption msg)), dir) := by
  rcases Segment.recoverLoop_rest (segmentPath path s.base) s.run.fits s.run.unreadable
    s.run.split with ⟨msg, scanned, _⟩ | ⟨_, sound⟩
  · refine ⟨msg, ?_⟩
    rintro dir rfl healthy found
    exact Segment.recover_refuses healthy found scanned
  · exact absurd (interior_iff.mp damaged) sound

/-- A file of records only. -/
def settled (base : Nat) (records : List Bytes) (fits : Fits records) : Scanned where
  base
  file := ⟨stream frame records, (stream frame records).length⟩
  records
  rest := []
  run := by
    refine ⟨(List.append_nil _).symm, fits, ?_⟩
    intro others fits' inside
    have unreadable : ∀ found, (parse []).1 ≠ .entry found := by
      intro found entry
      rw [parse_nil] at entry
      cases entry
    exact run_longest fits unreadable fits' ((List.append_nil _).symm ▸ inside)

theorem settled_sound (base : Nat) (records : List Bytes) (fits : Fits records) :
    ¬ (settled base records fits).Damaged := by
  intro damaged
  obtain ⟨corrupt, _, _⟩ := interior_iff.mp damaged
  have ended : (parse (settled base records fits).rest).1 = .eof := congrArg Prod.fst parse_nil
  rw [ended] at corrupt
  cases corrupt

/-- The file as recovery leaves it. -/
def again (s : Scanned) : Scanned := settled s.base s.records s.run.fits

end Scanned

/-- Some files of a directory have been recovered, and nothing else has changed. -/
structure Trimmed (dir dir' : Dir) (done : List Scanned) : Prop where
  path : dir'.path = dir.path
  malformed : dir'.malformed = dir.malformed
  healthy : dir'.outcomes = []
  keys : dir'.files.map Prod.fst = dir.files.map Prod.fst
  recovered : ∀ s ∈ done, dir'.find s.base = some s.chunk.file
  others : ∀ base ∉ done.map Scanned.base, dir'.find base = dir.find base
  settled : (∀ s ∈ done, dir.find s.base = some s.chunk.file) → dir' = dir

namespace Trimmed
variable {dir dir' : Dir} {s : Scanned} {done : List Scanned}

theorem none (healthy : dir.outcomes = []) : Trimmed dir dir [] where
  path := rfl
  malformed := rfl
  healthy := healthy
  keys := rfl
  recovered := by simp
  others _ _ := rfl
  settled _ := rfl

theorem first (found : dir.find s.base = some s.file)
    (distinct : s.base ∉ done.map Scanned.base)
    (cut : Trimmed (dir.setFile s.base s.chunk.file) dir' done) : Trimmed dir dir' (s :: done) where
  path := cut.path
  malformed := cut.malformed
  healthy := cut.healthy
  keys := cut.keys.trans (Keyed.put_keys _ _ _)
  recovered := by
    intro x inside
    rcases List.mem_cons.mp inside with rfl | later
    · rw [cut.others _ distinct]
      exact Dir.find_setFile found
    · exact cut.recovered x later
  others := by
    intro base absent
    rw [List.map_cons, List.mem_cons, not_or] at absent
    rw [cut.others base absent.2]
    exact Keyed.lookup_put_other absent.1
  settled := by
    intro whole
    have same : dir.setFile s.base s.chunk.file = dir := by
      rw [Dir.setFile, Keyed.put_self (whole s List.mem_cons_self)]
    rw [cut.settled ?_, same]
    intro x inside
    rw [same]
    exact whole x (List.mem_cons_of_mem _ inside)

theorem again (cut : Trimmed dir dir' done) {dir'' : Dir}
    (twice : Trimmed dir' dir'' (done.map Scanned.again)) : dir'' = dir' := by
  apply twice.settled
  intro s inside
  obtain ⟨x, member, rfl⟩ := List.mem_map.mp inside
  exact cut.recovered x member

end Trimmed

namespace Log
variable {dir dir' : Dir} {s : Scanned} {files front back : List Scanned}

/-- The files are in the directory, each with its number. -/
structure Lists (dir : Dir) (files : List Scanned) : Prop where
  found : ∀ s ∈ files, dir.find s.base = some s.file
  sorted : (files.map Scanned.base).Pairwise (· < ·)

theorem Lists.tail (lists : Lists dir (s :: files)) :
    Lists (dir.setFile s.base s.chunk.file) files where
  found := by
    intro x inside
    have lower := (List.pairwise_cons.mp lists.sorted).1 x.base (List.mem_map_of_mem inside)
    rw [← lists.found x (List.mem_cons_of_mem _ inside)]
    exact Keyed.lookup_put_other (Nat.ne_of_gt lower)
  sorted := (List.pairwise_cons.mp lists.sorted).2

theorem Lists.absent (lists : Lists dir (s :: files)) : s.base ∉ files.map Scanned.base := by
  intro inside
  exact Nat.lt_irrefl _ ((List.pairwise_cons.mp lists.sorted).1 _ inside)

theorem recoverAll_sound (healthy : dir.outcomes = []) (lists : Lists dir files)
    (sound : ∀ s ∈ files, ¬ s.Damaged) :
    ∃ dir', recoverAll (files.map Scanned.base) dir =
      (.ok (files.map (·.chunk.segment)), dir') ∧ Trimmed dir dir' files := by
  induction files generalizing dir with
  | nil => exact ⟨dir, rfl, .none healthy⟩
  | cons s files ih =>
    have found := lists.found s List.mem_cons_self
    have ran := s.recover_sound (sound s List.mem_cons_self) healthy found
    have healthy' : (dir.setFile s.base s.chunk.file).outcomes = [] := healthy
    obtain ⟨dir', later, cut⟩ := ih healthy' lists.tail
      fun x inside => sound x (List.mem_cons_of_mem _ inside)
    refine ⟨dir', ?_, cut.first found lists.absent⟩
    rw [List.map_cons, recoverAll, Fallible.bind_ok ran, Fallible.bind_ok later]
    rfl

theorem recoverAll_damaged (damaged : s.Damaged) (path : String) (back : List Scanned) :
    ∃ msg, ∀ (front : List Scanned) (dir : Dir), dir.path = path → dir.outcomes = [] →
      Lists dir (front ++ s :: back) → (∀ x ∈ front, ¬ x.Damaged) →
      ∃ dir', recoverAll ((front ++ s :: back).map Scanned.base) dir =
        (.error (.err (.corruption msg)), dir') ∧ Trimmed dir dir' front := by
  obtain ⟨msg, refused⟩ := s.recover_damaged damaged path
  refine ⟨msg, ?_⟩
  intro front
  induction front with
  | nil =>
    intro dir here healthy lists _
    refine ⟨dir, ?_, .none healthy⟩
    have ran := refused dir here healthy (lists.found s List.mem_cons_self)
    rw [List.nil_append, List.map_cons, recoverAll, Fallible.bind_error ran]
  | cons first front ih =>
    intro dir here healthy lists sound
    have found := lists.found first List.mem_cons_self
    have ran := first.recover_sound (sound first List.mem_cons_self) healthy found
    obtain ⟨dir', later, cut⟩ := ih (dir.setFile first.base first.chunk.file) here healthy lists.tail
      fun x inside => sound x (List.mem_cons_of_mem _ inside)
    have absent : first.base ∉ front.map Scanned.base := by
      intro inside
      have later : first.base ∈ (front ++ s :: back).map Scanned.base := by
        rw [List.map_append]
        exact List.mem_append_left _ inside
      exact lists.absent later
    refine ⟨dir', ?_, cut.first found absent⟩
    rw [List.cons_append, List.map_cons, recoverAll, Fallible.bind_ok ran, Fallible.bind_error later]

theorem sound_or_first (files : List Scanned) : (∀ s ∈ files, ¬ s.Damaged) ∨
    ∃ front s back, files = front ++ s :: back ∧ (∀ x ∈ front, ¬ x.Damaged) ∧ s.Damaged := by
  induction files with
  | nil => exact Or.inl (by simp)
  | cons first files ih =>
    by_cases damaged : first.Damaged
    · exact Or.inr ⟨[], first, files, rfl, by simp, damaged⟩
    · rcases ih with sound | ⟨front, s, back, rfl, sound, broken⟩
      · exact Or.inl (List.forall_mem_cons.mpr ⟨damaged, sound⟩)
      · exact Or.inr ⟨first :: front, s, back, rfl, List.forall_mem_cons.mpr ⟨damaged, sound⟩, broken⟩

variable {maxSegmentBytes : Nat}

/-- The files are all the files of the directory. -/
structure Covers (dir : Dir) (files : List Scanned) : Prop extends Lists dir files where
  healthy : dir.outcomes = []
  named : dir.malformed = []
  complete : (dir.files.map Prod.fst).Perm (files.map Scanned.base)

/-- What `open` makes of the recovered segments. -/
def assemble (maxSegmentBytes : Nat) (segments : List Segment) : Fallible Stop Dir Log := do
  match segments.head?, segments.getLast? with
  | some first, some last =>
    let lastIndex := if last.count = 0 then last.baseIndex - 1
      else last.baseIndex + last.count - 1
    pure ⟨← Fallible.get, maxSegmentBytes, segments, first.baseIndex, lastIndex⟩
  | _, _ => Fallible.stop (.panic "called `Option::unwrap()` on a `None` value")

theorem Covers.open_eq (covers : Covers dir files) (some_file : files ≠ []) (maxSegmentBytes : Nat) :
    Log.open maxSegmentBytes dir =
      (recoverAll (files.map Scanned.base) >>= assemble maxSegmentBytes) dir := by
  have sorted : (dir.files.map Prod.fst).insertionSort (· ≤ ·) = files.map Scanned.base := by
    refine List.Perm.eq_of_pairwise' (r := (· ≤ ·)) (List.pairwise_insertionSort _ _)
      (covers.sorted.imp Nat.le_of_lt) ?_
    exact (List.perm_insertionSort _ _).trans covers.complete
  have some_base : dir.files.map Prod.fst ≠ [] := by
    intro empty
    have none := covers.complete
    rw [empty, List.nil_perm, List.map_eq_nil_iff] at none
    exact some_file none
  simp only [Log.open, Fallible.bind_run, Fallible.get_run, discoverSegments, covers.named,
    Except.mapError, Fallible.lift_run, some_base, if_false, sorted]
  rfl

/-- The log with these segments. -/
def assembled (dir : Dir) (maxSegmentBytes : Nat) (files : List Scanned) (first last : Scanned) :
    Log where
  dir
  maxSegmentBytes
  segments := files.map (·.chunk.segment)
  firstIndex := first.base
  lastIndex := last.base + last.records.length - 1

theorem assemble_run {first last : Scanned} (starts : files.head? = some first)
    (ends : files.getLast? = some last) (maxSegmentBytes : Nat) (dir : Dir) :
    assemble maxSegmentBytes (files.map (·.chunk.segment)) dir =
      (.ok (assembled dir maxSegmentBytes files first last), dir) := by
  have count : last.chunk.segment.count = last.records.length := rfl
  have base : last.chunk.segment.baseIndex = last.base := rfl
  have ending : (if last.chunk.segment.count = 0 then last.chunk.segment.baseIndex - 1
      else last.chunk.segment.baseIndex + last.chunk.segment.count - 1) =
      last.base + last.records.length - 1 := by
    rw [count, base]
    split_ifs with empty
    · rw [empty, Nat.add_zero]
    · rfl
  simp only [assemble, List.head?_map, List.getLast?_map, starts, ends, Option.map_some,
    Fallible.bind_run, Fallible.get_run, Fallible.pure_run, ending]
  rfl

theorem Covers.cut (covers : Covers dir (front ++ back)) (cut : Trimmed dir dir' front) :
    Covers dir' (front.map Scanned.again ++ back) where
  found := by
    intro s inside
    rcases List.mem_append.mp inside with recovered | behind
    · obtain ⟨x, member, rfl⟩ := List.mem_map.mp recovered
      exact cut.recovered x member
    · have absent : s.base ∉ front.map Scanned.base := by
        intro before
        have sorted := covers.sorted
        rw [List.map_append, List.pairwise_append] at sorted
        exact Nat.lt_irrefl _ (sorted.2.2 _ before _ (List.mem_map_of_mem behind))
      rw [cut.others _ absent]
      exact covers.found s (List.mem_append_right _ behind)
  sorted := by
    have sorted := covers.sorted
    rw [List.map_append] at sorted ⊢
    rw [List.map_map]
    exact sorted
  healthy := cut.healthy
  named := cut.malformed.trans covers.named
  complete := by
    have complete := covers.complete
    rw [List.map_append] at complete ⊢
    rw [List.map_map, cut.keys]
    exact complete

theorem again_sound {x : Scanned} (inside : x ∈ files.map Scanned.again) : ¬ x.Damaged := by
  obtain ⟨s, _, rfl⟩ := List.mem_map.mp inside
  exact Scanned.settled_sound _ _ _

theorem Covers.open_sound (covers : Covers dir files) (sound : ∀ s ∈ files, ¬ s.Damaged)
    {first last : Scanned} (starts : files.head? = some first) (ends : files.getLast? = some last)
    (maxSegmentBytes : Nat) :
    ∃ dir', Log.open maxSegmentBytes dir =
      (.ok (assembled dir' maxSegmentBytes files first last), dir') ∧ Trimmed dir dir' files := by
  obtain ⟨dir', recovered, cut⟩ := recoverAll_sound covers.healthy covers.toLists sound
  refine ⟨dir', ?_, cut⟩
  have some_file : files ≠ [] := by
    rintro rfl
    cases starts
  rw [covers.open_eq some_file, Fallible.bind_ok recovered, assemble_run starts ends]

theorem Covers.open_damaged (covers : Covers dir (front ++ s :: back))
    (sound : ∀ x ∈ front, ¬ x.Damaged) (damaged : s.Damaged) (maxSegmentBytes : Nat) :
    ∃ msg dir', Log.open maxSegmentBytes dir = (.error (.err (.corruption msg)), dir') ∧
      Log.open maxSegmentBytes dir' = (.error (.err (.corruption msg)), dir') ∧
      Trimmed dir dir' front := by
  obtain ⟨msg, refused⟩ := recoverAll_damaged damaged dir.path back
  obtain ⟨dir', ran, cut⟩ := refused front dir rfl covers.healthy covers.toLists sound
  have covers' := covers.cut cut
  obtain ⟨dir'', twice, cut'⟩ := refused (front.map Scanned.again) dir' cut.path covers'.healthy
    covers'.toLists fun x => again_sound
  rw [cut.again cut'] at twice
  refine ⟨msg, dir', ?_, ?_, cut⟩
  · rw [covers.open_eq (by simp), Fallible.bind_error ran]
  · rw [covers'.open_eq (by simp), Fallible.bind_error twice]

theorem readAll_assembled (cut : Trimmed dir dir' files) (first last : Scanned)
    (maxSegmentBytes : Nat) :
    (readAll (assembled dir' maxSegmentBytes files first last)).1 =
      .ok (files.flatMap fun s => number s.base s.records) := by
  have segments : (assembled dir' maxSegmentBytes files first last).segments =
      (files.map Scanned.chunk).map Chunk.segment := by
    rw [List.map_map]
    rfl
  have found : ∀ c ∈ files.map Scanned.chunk, dir'.find c.base = some c.file := by
    intro c member
    obtain ⟨s, inside, rfl⟩ := List.mem_map.mp member
    exact cut.recovered s inside
  have reached : ∀ c ∈ files.map Scanned.chunk, c.file.content = stream frame c.records := by
    intro c member
    obtain ⟨s, _, rfl⟩ := List.mem_map.mp member
    exact (Chunk.settled_synced _ _ _).content
  have read := readSegments_run cut.healthy found reached
  have here : (assembled dir' maxSegmentBytes files first last).dir = dir' := rfl
  simp only [readAll, Fallible.bind_run, Fallible.get_run, onDir, Fallible.part_run, segments, here,
    read, List.flatMap_map]
  rfl

/-- What opening does with a directory that holds these files. -/
structure Reopens (maxSegmentBytes : Nat) (dir : Dir) (files : List Scanned) : Prop where
  covers : Covers dir files
  /-- A log over sound files opens and holds their records, each with its own index. -/
  accepts : (∀ s ∈ files, ¬ s.Damaged) → ∃ log, (Log.open maxSegmentBytes dir).1 = .ok log ∧
    (readAll log).1 = .ok (files.flatMap fun s => number s.base s.records)
  refuses : (∃ s ∈ files, s.Damaged) →
    ∃ msg, (Log.open maxSegmentBytes dir).1 = .error (.err (.corruption msg))
  /-- No record that can be read is lost, whether the log opens or not. -/
  spares : ∀ s ∈ files, ∃ file, (Log.open maxSegmentBytes dir).2.find s.base = some file ∧
    stream frame s.records <+: file.content
  /-- A damaged file stays as it is. -/
  untouched : ∀ s ∈ files, s.Damaged →
    (Log.open maxSegmentBytes dir).2.find s.base = some s.file
  again : Log.open maxSegmentBytes (Log.open maxSegmentBytes dir).2 = Log.open maxSegmentBytes dir

theorem reopens_sound (covers : Covers dir files) (sound : ∀ s ∈ files, ¬ s.Damaged)
    (some_file : files ≠ []) (maxSegmentBytes : Nat) : Reopens maxSegmentBytes dir files := by
  obtain ⟨first, starts⟩ := Option.ne_none_iff_exists'.mp (List.head?_eq_none_iff.not.mpr some_file)
  obtain ⟨last, ends⟩ := Option.ne_none_iff_exists'.mp (List.getLast?_eq_none_iff.not.mpr some_file)
  obtain ⟨dir', opened, cut⟩ := covers.open_sound sound starts ends maxSegmentBytes
  have covers' : Covers dir' (files.map Scanned.again) := by
    have both : Covers dir (files ++ []) := (List.append_nil files).symm ▸ covers
    exact List.append_nil (files.map Scanned.again) ▸ both.cut cut
  have starts' : (files.map Scanned.again).head? = some first.again := by
    rw [List.head?_map, starts, Option.map_some]
  have ends' : (files.map Scanned.again).getLast? = some last.again := by
    rw [List.getLast?_map, ends, Option.map_some]
  obtain ⟨dir'', twice, cut'⟩ := covers'.open_sound (fun x => again_sound) starts' ends'
    maxSegmentBytes
  obtain rfl := cut.again cut'
  refine ⟨covers, fun _ => ?_, ?_, ?_, ?_, ?_⟩
  · rw [opened]
    exact ⟨_, rfl, readAll_assembled cut first last maxSegmentBytes⟩
  · rintro ⟨s, inside, damaged⟩
    exact absurd damaged (sound s inside)
  · intro s inside
    rw [opened]
    exact ⟨_, cut.recovered s inside, List.prefix_refl _⟩
  · intro s inside damaged
    exact absurd damaged (sound s inside)
  · rw [opened, twice]
    simp only [assembled, List.map_map]
    rfl

theorem reopens_damaged (covers : Covers dir (front ++ s :: back))
    (sound : ∀ x ∈ front, ¬ x.Damaged) (damaged : s.Damaged) (maxSegmentBytes : Nat) :
    Reopens maxSegmentBytes dir (front ++ s :: back) := by
  obtain ⟨msg, dir', opened, twice, cut⟩ := covers.open_damaged sound damaged maxSegmentBytes
  have behind : ∀ x ∈ s :: back, dir'.find x.base = some x.file := by
    intro x inside
    exact (covers.cut cut).found x (List.mem_append_right _ inside)
  refine ⟨covers, ?_, fun _ => ?_, ?_, ?_, ?_⟩
  · intro all
    exact absurd damaged (all s (List.mem_append_right _ List.mem_cons_self))
  · rw [opened]
    exact ⟨msg, rfl⟩
  · intro x inside
    rw [opened]
    rcases List.mem_append.mp inside with before | after
    · exact ⟨_, cut.recovered x before, List.prefix_refl _⟩
    · refine ⟨_, behind x after, ?_⟩
      rw [x.run.split]
      exact List.prefix_append _ _
  · intro x inside broken
    rw [opened]
    rcases List.mem_append.mp inside with before | after
    · exact absurd broken (sound x before)
    · exact behind x after
  · rw [opened, twice]

theorem reopens (covers : Covers dir files) (some_file : files ≠ []) (maxSegmentBytes : Nat) :
    Reopens maxSegmentBytes dir files := by
  rcases sound_or_first files with sound | ⟨front, s, back, rfl, sound, damaged⟩
  · exact reopens_sound covers sound some_file maxSegmentBytes
  · exact reopens_damaged covers sound damaged maxSegmentBytes

theorem reopens_empty (covers : Covers dir []) (maxSegmentBytes : Nat) :
    Reopens maxSegmentBytes dir [] := by
  have empty : dir.files = [] := by
    have complete := covers.complete
    rw [List.map_nil, List.perm_nil, List.map_eq_nil_iff] at complete
    exact complete
  have healthy := covers.healthy
  have named := covers.named
  obtain ⟨path, files, malformed, outcomes⟩ := dir
  cases empty
  cases healthy
  cases named
  exact ⟨covers, fun _ => ⟨_, rfl, rfl⟩, by simp, by simp, by simp, rfl⟩

theorem exists_scanned (dir : Dir) {bases : List Nat}
    (found : ∀ base ∈ bases, base ∈ dir.files.map Prod.fst) :
    ∃ files : List Scanned, files.map Scanned.base = bases ∧
      ∀ s ∈ files, dir.find s.base = some s.file := by
  induction bases with
  | nil => exact ⟨[], rfl, by simp⟩
  | cons base bases ih =>
    obtain ⟨here, later⟩ := List.forall_mem_cons.mp found
    obtain ⟨files, numbers, held⟩ := ih later
    obtain ⟨file, holds⟩ : ∃ file, dir.find base = some file := by
      rw [← Option.ne_none_iff_exists', Dir.find, Ne, List.lookup_eq_none_iff]
      intro absent
      obtain ⟨entry, inside, same⟩ := List.mem_map.mp here
      have differs := absent entry inside
      rw [same, bne_self_eq_false] at differs
      cases differs
    obtain ⟨s, rfl, rfl⟩ := Scanned.exists_of_file base file
    exact ⟨s :: files, congrArg _ numbers, List.forall_mem_cons.mpr ⟨holds, held⟩⟩

theorem exists_covers (healthy : dir.outcomes = []) (named : dir.malformed = [])
    (distinct : (dir.files.map Prod.fst).Nodup) : ∃ files, Covers dir files := by
  have perm := List.perm_insertionSort (· ≤ ·) (dir.files.map Prod.fst)
  obtain ⟨files, numbers, found⟩ := exists_scanned dir fun base inside => perm.mem_iff.mp inside
  refine ⟨files, ⟨found, ?_⟩, healthy, named, numbers ▸ perm.symm⟩
  rw [numbers]
  have sorted := List.pairwise_insertionSort (· ≤ ·) (dir.files.map Prod.fst)
  exact (sorted.and (perm.nodup_iff.mpr distinct)).imp fun bounds => lt_of_le_of_ne bounds.1 bounds.2

/-- The number of each file and those of the records in it are numbers of `u64`, from 1 on. -/
def Counted (dir : Dir) : Prop :=
  ∀ base file, dir.find base = some file → 1 ≤ base ∧
    ∀ records, Fits records → stream frame records <+: file.content →
      base + records.length < 2 ^ 64

/-- Opening is exact on every directory whose files are counted: the log that opens holds what
can be read of every file, and it opens unless a file is damaged before intact records. No index
on the way goes below 0 or wraps around. -/
theorem open_exact (maxSegmentBytes : Nat) (healthy : dir.outcomes = []) (named : dir.malformed = [])
    (distinct : (dir.files.map Prod.fst).Nodup) (counted : Counted dir) :
    ∃ files, Reopens maxSegmentBytes dir files ∧
      ∀ s ∈ files, 1 ≤ s.base ∧ s.base + s.records.length < 2 ^ 64 := by
  obtain ⟨files, covers⟩ := exists_covers healthy named distinct
  refine ⟨files, ?_, fun s inside => ?_⟩
  · cases files with
    | nil => exact reopens_empty covers maxSegmentBytes
    | cons s files => exact reopens covers (by simp) maxSegmentBytes
  · obtain ⟨low, high⟩ := counted s.base s.file (covers.found s inside)
    refine ⟨low, high s.records s.run.fits ?_⟩
    rw [s.run.split]
    exact List.prefix_append _ _

end Log
end Files

namespace Log

/-- Two segments, listed in no order: one with garbage behind its record, and one whose first
record fails its check. -/
def disturbed : Dir := ⟨"wal",
  [(2, ⟨recordHeader [1] ++ [3] ++ frame [2], 18⟩), (1, ⟨frame [1] ++ [9, 9, 9], 9⟩)], [], []⟩

theorem disturbed_counted : Counted disturbed := by
  have sizes : ∀ entry ∈ disturbed.files,
      1 ≤ entry.1 ∧ entry.1 + entry.2.content.length < 2 ^ 64 := by decide +kernel
  intro base file found
  have small := sizes (base, file) (Keyed.mem_of_lookup found)
  refine ⟨small.1, fun records _ inside => ?_⟩
  have fewer : records.length ≤ (stream frame records).length := length_le_stream records
  have length := inside.length_le
  have bound := small.2
  dsimp only at bound
  omega

theorem open_exact_disturbed :
    (∃ files, Reopens 64 disturbed files) ∧
      (Log.open 64 disturbed).1.toOption = none ∧
      (Log.open 64 disturbed).2.files =
        [(2, ⟨recordHeader [1] ++ [3] ++ frame [2], 18⟩), (1, ⟨frame [1], 9⟩)] := by
  obtain ⟨files, reopens, _⟩ := open_exact 64 rfl rfl (by decide) disturbed_counted
  exact ⟨⟨files, reopens⟩, by decide +kernel, by decide +kernel⟩

end Log
end WalKv
