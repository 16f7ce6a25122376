import WalKv.Wal.Recovery

/-! Damage inside a segment. Recovery takes a record it cannot read for a torn one,
unless it reads as complete and all that then is left reads as records. -/
namespace WalKv
open Framing (stream Torn)
open LittleEndian

section Records
variable [Checksum] {records : List Bytes} {payload tail bytes : Bytes}

/-- The bytes are records and nothing else. -/
def Clean (bytes : Bytes) : Prop := ∃ records, Fits records ∧ bytes = stream frame records

theorem clean_frame (small : payload.length ≤ maxRecordLen) :
    Clean (frame payload ++ bytes) ↔ Clean bytes := by
  constructor
  · rintro ⟨records, fits, same⟩
    have found := parse_frame small bytes
    rw [same] at found
    cases records with
    | nil => cases found
    | cons first records =>
      rw [Framing.stream_cons, parse_frame (fits first List.mem_cons_self)] at found
      exact ⟨records, fun x member => fits x (List.mem_cons_of_mem _ member), (Prod.mk.inj found).2.symm⟩
  · rintro ⟨records, fits, rfl⟩
    refine ⟨payload :: records, fun x member => ?_, rfl⟩
    rcases List.mem_cons.mp member with rfl | later
    · exact small
    · exact fits x later

theorem clean_stream (fits : Fits records) :
    Clean (stream frame records ++ bytes) ↔ Clean bytes := by
  induction records with
  | nil => rfl
  | cons payload records ih =>
    rw [Framing.stream_cons, List.append_assoc, clean_frame (fits payload List.mem_cons_self)]
    exact ih fun x member => fits x (List.mem_cons_of_mem _ member)

theorem clean_nil : Clean [] := ⟨[], nofun, rfl⟩

theorem Clean.reads (clean : Clean bytes) :
    bytes = [] ∨ ∃ payload rest, parse bytes = (.entry payload, rest) := by
  obtain ⟨records, fits, rfl⟩ := clean
  cases records with
  | nil => exact Or.inl rfl
  | cons payload records => exact Or.inr ⟨payload, _, parse_frame (fits payload List.mem_cons_self) _⟩

theorem clean_tail (torn : Tail tail) : Clean tail ↔ tail = [] := by
  constructor
  · intro clean
    rcases clean.reads with empty | ⟨payload, rest, found⟩
    · exact empty
    · rcases parse_tail torn with ended | ended <;> cases found.symm.trans ended
  · rintro rfl
    exact clean_nil

theorem parse_sized {header body : Bytes} (rest : Bytes) (full : header.length = headerLen)
    (len : decode (header.drop 4) = body.length) (small : body.length ≤ maxRecordLen) :
    (parse (header ++ (body ++ rest))).1 ∈ [.corrupt, .entry body] ∧
      (parse (header ++ (body ++ rest))).2 = rest := by
  simp only [parse, List.take_left' full, List.drop_left' full, full, len]
  rw [if_neg (by decide), if_neg (Nat.lt_irrefl _), if_neg (Nat.not_lt.mpr small), List.take_left,
    List.drop_left, if_neg (Nat.lt_irrefl _)]
  split_ifs <;> simp

namespace Segment

theorem restParsesCleanly_run {fuel : Nat} (enough : bytes.length < fuel) :
    ∃ clean, restParsesCleanly fuel ⟨bytes, []⟩ = .ok clean ∧ (clean = true ↔ Clean bytes) := by
  induction fuel generalizing bytes with
  | zero => contradiction
  | succ fuel ih =>
    rw [restParsesCleanly, readRecord_whole]
    rcases found : parse bytes with ⟨payload | _ | _ | _, rest⟩
    · obtain ⟨rfl, small⟩ := parse_exact found
      rw [List.length_append, frame_length, headerLen] at enough
      rw [clean_frame small]
      have shorter : rest.length < fuel := by omega
      exact ih shorter
    · have empty := parse_eof (congrArg Prod.fst found)
      exact ⟨true, rfl, iff_of_true rfl (empty ▸ clean_nil)⟩
    all_goals
      refine ⟨false, rfl, iff_of_false Bool.false_ne_true fun clean => ?_⟩
      rcases clean.reads with rfl | ⟨payload, rest', entry⟩
      · cases found
      · cases entry.symm.trans found

variable {dir : Dir} {base : Nat} {file : File}

theorem recover_refuses {error : Error} (healthy : dir.outcomes = [])
    (found : dir.find base = some file)
    (scanned : recoverLoop (segmentPath dir.path base) file.content.length (file.content.length + 1)
      ⟨file.content, []⟩ 0 0 = .error error) :
    recover base dir = (.error (.err error), dir) := by
  simp only [recover, Fallible.bind_run, Fallible.get_run, Dir.read, Dir.existing_ok healthy found,
    Fallible.pure_run, scanned, Fallible.lift_run, Except.mapError]

theorem recoverLoop_rest (path : String) (fits : Fits records) {rest : Bytes}
    (unreadable : ∀ found, (parse rest).1 ≠ .entry found)
    (content : bytes = stream frame records ++ rest) :
    (∃ msg, recoverLoop path bytes.length (bytes.length + 1) ⟨bytes, []⟩ 0 0 =
        .error (.corruption msg) ∧
      (parse rest).1 = .corrupt ∧ (parse rest).2 ≠ [] ∧ Clean (parse rest).2) ∨
    recoverLoop path bytes.length (bytes.length + 1) ⟨bytes, []⟩ 0 0 =
        .ok ((stream frame records).length, records.length) ∧
      ¬ ((parse rest).1 = .corrupt ∧ (parse rest).2 ≠ [] ∧ Clean (parse rest).2) := by
  have short : records.length ≤ bytes.length := by
    have := length_le_stream records
    rw [content, List.length_append]
    omega
  obtain ⟨fuel, enough⟩ := Nat.exists_eq_add_of_le short
  have skipped := recoverLoop_skip path (fuel + 1) 0 fits rest (Nat.zero_add _)
  rw [← Nat.add_assoc, Nat.zero_add, Nat.zero_add, ← content, ← enough] at skipped
  rw [skipped, recoverLoop, readRecord_whole]
  rcases found : parse rest with ⟨payload | _ | _ | _, left⟩
  · exact absurd (congrArg Prod.fst found) (unreadable payload)
  · exact Or.inr ⟨rfl, by simp⟩
  · exact Or.inr ⟨rfl, by simp⟩
  · obtain ⟨clean, checked, means⟩ := restParsesCleanly_run (Nat.lt_succ_self left.length)
    have some_byte : 0 < bytes.length := by
      rw [content, List.length_append]
      have : 0 < rest.length := by
        rw [List.length_pos_iff]
        rintro rfl
        cases found
      omega
    by_cases none : left = []
    · refine Or.inr ⟨?_, fun detectable => detectable.2.1 none⟩
      subst none
      simp [bind, Except.bind, pure, Except.pure]
    · have more : bytes.length - left.length < bytes.length := by
        have := List.length_pos_iff.mpr none
        omega
      simp only [bind, Except.bind, if_pos more, checked]
      cases clean with
      | true => exact Or.inl ⟨_, rfl, trivial, none, means.mp rfl⟩
      | false => exact Or.inr ⟨rfl, fun detectable => Bool.false_ne_true (means.mpr detectable.2.2)⟩

end Segment

/-- Records written to a segment and synced, of which one that is not the last has
been changed so that it cannot be read. A torn record may follow. -/
structure Damage where
  before : List Bytes
  payload : Bytes
  changed : Bytes
  after : List Bytes
  tail : Bytes
  fits : Fits (before ++ payload :: after)
  inPlace : changed.length = (frame payload).length
  interior : after ≠ []
  torn : Tail tail
  unreadable : ∀ found, (parse (changed ++ stream frame after ++ tail)).1 ≠ .entry found

namespace Damage

/-- The file from the changed record on. -/
def rest (d : Damage) : Bytes := d.changed ++ stream frame d.after ++ d.tail

def content (d : Damage) : Bytes := stream frame d.before ++ d.rest

/-- The changed record reads as complete, and what then is left is records. -/
def Detectable (d : Damage) : Prop :=
  (parse d.rest).1 = .corrupt ∧ (parse d.rest).2 ≠ [] ∧ Clean (parse d.rest).2

theorem detectable_of_length (d : Damage)
    (intact : (d.changed.drop 4).take 4 = encode 4 d.payload.length) :
    d.Detectable ↔ d.tail = [] := by
  have small : d.payload.length ≤ maxRecordLen := d.fits d.payload (by simp)
  have size := d.inPlace
  rw [frame_length] at size
  have full : (d.changed.take headerLen).length = headerLen := by
    rw [List.length_take]
    omega
  have body : (d.changed.drop headerLen).length = d.payload.length := by
    rw [List.length_drop]
    omega
  have len : decode ((d.changed.take headerLen).drop 4) = (d.changed.drop headerLen).length := by
    rw [body, List.drop_take, show headerLen - 4 = 4 from rfl, intact]
    exact decode_encode (lt_of_le_of_lt small (by decide))
  have split : d.rest = d.changed.take headerLen ++
      (d.changed.drop headerLen ++ (stream frame d.after ++ d.tail)) := by
    rw [rest, ← List.append_assoc, List.take_append_drop, List.append_assoc]
  obtain ⟨read, left⟩ := parse_sized (stream frame d.after ++ d.tail) full len (body ▸ small)
  rw [← split] at read left
  have corrupt : (parse d.rest).1 = .corrupt := by
    rcases List.mem_cons.mp read with corrupt | entry
    · exact corrupt
    · exact absurd (List.mem_singleton.mp entry) (d.unreadable _)
  have follows : stream frame d.after ++ d.tail ≠ [] := by
    intro empty
    have none := length_le_stream d.after
    rw [List.append_eq_nil_iff.mp empty |>.1] at none
    exact d.interior (List.length_eq_zero_iff.mp (Nat.le_zero.mp none))
  have fits : Fits d.after := fun x member => d.fits x (by simp [member])
  rw [Detectable, left, clean_stream fits, clean_tail d.torn]
  exact ⟨fun detectable => detectable.2.2, fun clean => ⟨corrupt, follows, clean⟩⟩

end Damage

/-- Recovery refuses a segment that is damaged inside, and leaves it as it is, exactly
if the damaged record reads as complete and all that then follows are records. -/
theorem recover_rejects_iff (d : Damage) {dir : Dir} {base : Nat} {file : File}
    (healthy : dir.outcomes = []) (found : dir.find base = some file)
    (content : file.content = d.content) :
    (∃ msg, Segment.recover base dir = (.error (.err (.corruption msg)), dir)) ↔ d.Detectable := by
  have fits : Fits d.before := fun x member => d.fits x (List.mem_append_left _ member)
  rcases Segment.recoverLoop_rest (segmentPath dir.path base) fits d.unreadable content with
    ⟨msg, scanned, detectable⟩ | ⟨scanned, missed⟩
  · exact iff_of_true ⟨msg, Segment.recover_refuses healthy found scanned⟩ detectable
  · refine iff_of_false ?_ missed
    rintro ⟨msg, refused⟩
    have within : (stream frame d.before).length ≤ file.content.length := by
      rw [content, Damage.content, List.length_append]
      omega
    cases refused.symm.trans (Segment.recover_scanned healthy found within scanned)

end Records

namespace Damage

/-- The first of two records, with a byte of its payload changed. -/
def flippedByte : Damage where
  before := []
  payload := [1]
  changed := recordHeader [1] ++ [3]
  after := [[2]]
  tail := []
  fits := by simp [Fits, maxRecordLen]
  inPlace := rfl
  interior := nofun
  torn := Or.inl rfl
  unreadable found := by
    have corrupt : (parse (recordHeader [1] ++ [3] ++ stream frame [[2]] ++ [])).1 = .corrupt := by
      decide +kernel
    rw [corrupt]
    nofun

/-- The first of two records, with a byte of its length changed so that it seems to
go on behind the end of the file. -/
def longerLength : Damage where
  before := []
  payload := [1]
  changed := (recordHeader [1]).take 4 ++ [100, 0, 0, 0] ++ [1]
  after := [[2]]
  tail := []
  fits := by simp [Fits, maxRecordLen]
  inPlace := rfl
  interior := nofun
  torn := Or.inl rfl
  unreadable found := by
    have truncated : (parse ((recordHeader [1]).take 4 ++ [100, 0, 0, 0] ++ [1] ++
        stream frame [[2]] ++ [])).1 = .truncated := by
      decide +kernel
    rw [truncated]
    nofun

/-- A directory that holds the damaged segment. -/
def dir (d : Damage) : Dir := ⟨"wal", [(1, ⟨d.content, d.content.length⟩)], [], []⟩

end Damage

theorem recover_rejects_flipped : ∃ msg, Segment.recover 1 Damage.flippedByte.dir =
    (.error (.err (.corruption msg)), Damage.flippedByte.dir) :=
  (recover_rejects_iff Damage.flippedByte rfl rfl rfl).mpr
    ((Damage.detectable_of_length _ (by decide)).mpr rfl)

/-- The second record is intact and synced, and recovery cuts it off. -/
theorem recover_drops_intact :
    ¬ ∃ msg, Segment.recover 1 Damage.longerLength.dir =
      (.error (.err (.corruption msg)), Damage.longerLength.dir) := by
  rintro ⟨msg, refused⟩
  have accepted : (Segment.recover 1 Damage.longerLength.dir).1.toOption = some ⟨1, [], 0, 0⟩ := by
    decide +kernel
  rw [refused] at accepted
  cases accepted

end WalKv
