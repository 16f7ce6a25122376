import WalKv.Wal.Corruption

/-! Recovery of one segment whatever its file holds. The scan finds the longest run of
records at the start of the file; what is left decides between cutting and refusing. -/
namespace WalKv
open Framing (stream)
open LittleEndian

section Records
variable [Checksum] {records : List Bytes} {bytes rest left : Bytes}

/-- The records at the start of the bytes, as many as there are, and what follows them. -/
structure LongestRun (bytes : Bytes) (records : List Bytes) (rest : Bytes) : Prop where
  split : bytes = stream frame records ++ rest
  fits : Fits records
  longest : ∀ others, Fits others → stream frame others <+: bytes → others <+: records

theorem exists_run (bytes : Bytes) : ∃ records rest, Fits records ∧
    bytes = stream frame records ++ rest ∧ ∀ found, (parse rest).1 ≠ .entry found := by
  induction sized : bytes.length using Nat.strong_induction_on generalizing bytes with
  | h size ih =>
    by_cases readable : ∃ found, (parse bytes).1 = .entry found
    · obtain ⟨payload, entry⟩ := readable
      obtain ⟨same, small⟩ := parse_exact (Prod.ext entry rfl : parse bytes = (_, (parse bytes).2))
      have shorter : (parse bytes).2.length < size := by
        have total := congrArg List.length same
        rw [List.length_append, frame_length, headerLen] at total
        omega
      obtain ⟨records, rest, fits, split, unreadable⟩ := ih _ shorter _ rfl
      refine ⟨payload :: records, rest, List.forall_mem_cons.mpr ⟨small, fits⟩, ?_, unreadable⟩
      rw [Framing.stream_cons, List.append_assoc, ← split]
      exact same
    · exact ⟨[], bytes, fits_nil, rfl, fun found entry => readable ⟨found, entry⟩⟩

theorem run_longest (fits : Fits records) (unreadable : ∀ found, (parse rest).1 ≠ .entry found)
    {others : List Bytes} (fits' : Fits others)
    (inside : stream frame others <+: stream frame records ++ rest) : others <+: records := by
  induction others generalizing records with
  | nil => exact List.nil_prefix
  | cons other others ih =>
    obtain ⟨small', fits'⟩ := List.forall_mem_cons.mp fits'
    obtain ⟨later, same⟩ := inside
    rw [Framing.stream_cons, List.append_assoc] at same
    have found := parse_frame small' (stream frame others ++ later)
    rw [same] at found
    cases records with
    | nil => exact absurd (congrArg Prod.fst found) (unreadable other)
    | cons payload records =>
      obtain ⟨small, rest_fits⟩ := List.forall_mem_cons.mp fits
      rw [Framing.stream_cons, List.append_assoc, parse_frame small] at found
      obtain ⟨⟨⟩, follows⟩ := Prod.mk.inj found
      rw [List.cons_prefix_cons]
      exact ⟨rfl, ih rest_fits fits' ⟨later, follows.symm⟩⟩

/-- `read_record` finds a corrupt record, and all that it leaves are records. -/
structure Interior (rest left : Bytes) : Prop where
  corrupt : readRecord ⟨rest, []⟩ = .ok (.corrupt, ⟨left, []⟩)
  more : left ≠ []
  clean : Clean left

theorem interior_iff : (∃ left, Interior rest left) ↔
    (parse rest).1 = .corrupt ∧ (parse rest).2 ≠ [] ∧ Clean (parse rest).2 := by
  constructor
  · rintro ⟨left, corrupt, more, clean⟩
    rw [readRecord_whole] at corrupt
    obtain ⟨read, ⟨⟩⟩ := Prod.mk.inj (Except.ok.inj corrupt)
    exact ⟨read, more, clean⟩
  · rintro ⟨corrupt, more, clean⟩
    refine ⟨_, ?_, more, clean⟩
    rw [readRecord_whole, corrupt]

/-- The length that the header of a record gives. -/
def lengthField (bytes : Bytes) : Nat := decode ((bytes.take headerLen).drop 4)

theorem parse_corrupt (corrupt : (parse rest).1 = .corrupt) : (parse rest).2 =
    rest.drop (headerLen + if maxRecordLen < lengthField rest then 0 else lengthField rest) := by
  have field : decode ((rest.take headerLen).drop 4) = lengthField rest := rfl
  simp only [parse, field] at corrupt ⊢
  split_ifs at corrupt ⊢
  · rfl
  · exact List.drop_drop

end Records

namespace Segment
variable [Checksum] {dir : Dir} {base : Nat} {file : File} {records : List Bytes} {rest : Bytes}

/-- What recovery does with a file that holds these records and this rest. -/
structure Exact (dir : Dir) (base : Nat) (file : File) (records : List Bytes) (rest : Bytes) :
    Prop where
  run : LongestRun file.content records rest
  accepts : (¬ ∃ left, Interior rest left) → recover base dir =
    (.ok ⟨base, [], (stream frame records).length, records.length⟩,
      dir.setFile base ⟨stream frame records, (stream frame records).length⟩)
  refuses : (∃ left, Interior rest left) →
    ∃ msg, recover base dir = (.error (.err (.corruption msg)), dir)
  stops : ∀ left, Interior rest left → left = rest.drop
    (headerLen + if maxRecordLen < lengthField rest then 0 else lengthField rest)
  /-- None of the records before some garbage is lost. -/
  kept : ∀ written garbage, Fits written → file.content = stream frame written ++ garbage →
    ∃ file', (recover base dir).2.find base = some file' ∧
      stream frame written <+: file'.content
  iterates : ∀ seg, (recover base dir).1 = .ok seg →
    (seg.iter (recover base dir).2).1 = .ok (records.map .ok)
  again : recover base (recover base dir).2 = recover base dir

/-- Recovery is exact on every file. -/
theorem recover_exact (healthy : dir.outcomes = []) (found : dir.find base = some file) :
    ∃ records rest, Exact dir base file records rest := by
  obtain ⟨records, rest, fits, content, unreadable⟩ := exists_run file.content
  have longest : ∀ others, Fits others → stream frame others <+: file.content →
      others <+: records := by
    intro others fits' inside
    rw [content] at inside
    exact run_longest fits unreadable fits' inside
  have stops : ∀ left, Interior rest left → left = rest.drop
      (headerLen + if maxRecordLen < lengthField rest then 0 else lengthField rest) := by
    rintro left ⟨corrupt, _, _⟩
    rw [readRecord_whole] at corrupt
    obtain ⟨read, ⟨⟩⟩ := Prod.mk.inj (Except.ok.inj corrupt)
    exact parse_corrupt read
  refine ⟨records, rest, ?_⟩
  rcases recoverLoop_rest (segmentPath dir.path base) fits unreadable content with
    ⟨msg, scanned, damaged⟩ | ⟨scanned, intact⟩
  · have refused := recover_refuses healthy found scanned
    rw [← interior_iff] at damaged
    refine ⟨⟨content, fits, longest⟩, fun intact => absurd damaged intact,
      fun _ => ⟨msg, refused⟩, stops, fun written garbage _ same => ?_, fun seg accepted => ?_, ?_⟩
    · rw [refused]
      exact ⟨file, found, same ▸ List.prefix_append _ _⟩
    · rw [refused] at accepted
      cases accepted
    · rw [refused, refused]
  · have within : (stream frame records).length ≤ file.content.length := by
      rw [content, List.length_append]
      omega
    have cut := recover_scanned healthy found within scanned
    rw [content, List.take_left] at cut
    rw [← interior_iff] at intact
    have found' : (dir.setFile base ⟨stream frame records, (stream frame records).length⟩).find
        base = some ⟨stream frame records, (stream frame records).length⟩ := Dir.find_setFile found
    have healthy' : (dir.setFile base
        ⟨stream frame records, (stream frame records).length⟩).outcomes = [] := healthy
    refine ⟨⟨content, fits, longest⟩, fun _ => cut, fun damaged => absurd damaged intact, stops,
      fun written garbage fits' same => ?_, fun seg accepted => ?_, ?_⟩
    · rw [cut]
      refine ⟨_, found', Framing.stream_prefix (longest written fits' ?_)⟩
      exact same ▸ List.prefix_append _ _
    · rw [cut] at accepted ⊢
      cases accepted
      rw [iter_run (Dir.ready_nil healthy') found' rfl fits]
    · have whole : (⟨stream frame records, (stream frame records).length⟩ : File).content =
          stream frame records ++ [] := (List.append_nil _).symm
      rw [cut, recover_run healthy' found' whole (Or.inl rfl) fits]
      simp only [Chunk.settled, Dir.setFile, Keyed.put_put]

end Segment

namespace Segment

/-- A record, and bytes that are none. -/
def garbled : Dir := ⟨"wal", [(1, ⟨frame [1] ++ [9, 9, 9], 9⟩)], [], []⟩

theorem recover_exact_garbled :
    (∃ records rest, Exact garbled 1 ⟨frame [1] ++ [9, 9, 9], 9⟩ records rest) ∧
      (recover 1 garbled).1.toOption = some ⟨1, [], 9, 1⟩ :=
  ⟨recover_exact rfl rfl, by decide +kernel⟩

end Segment
end WalKv
