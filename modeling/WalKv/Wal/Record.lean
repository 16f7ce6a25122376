import WalKv.Error
import WalKv.LittleEndian
import WalKv.Crc32
import WalKv.Framing
import Mathlib.Tactic.SplitIfs

/-! Record framing: checksum, length and payload. A reader may hand out its bytes
in any pieces; what a record reads as depends on the bytes alone. -/
namespace WalKv
open LittleEndian

/-- The checksum in a record's header. Nothing but the concrete runs depends on
which function it is. -/
class Checksum where
  crc : Bytes → UInt32

instance crc32 : Checksum := ⟨Crc32.checksum⟩

def headerLen : Nat := 8

def maxRecordLen : Nat := 64 * 1024 * 1024

inductive RecordRead where
  | entry (payload : Bytes)
  | eof
  | truncated
  | corrupt
  deriving DecidableEq, Repr

/-- How one call of `read` ends: with at most so many bytes more than one, or
without any. -/
inductive ReadStep where
  | upTo (more : Nat)
  | interrupted
  | failed (msg : String)
  deriving DecidableEq, Repr

/-- What is left to read, and how the coming calls of `read` end. Once these are
used up every call returns all that fits. -/
structure Reader where
  rest : Bytes
  steps : List ReadStep
  deriving DecidableEq, Repr

/-- The loop of `fill`: read until `wanted` bytes are there or none are left. -/
def fillLoop (wanted : Nat) (rest : Bytes) : List ReadStep → Except Error (Bytes × Reader)
  | [] => .ok (rest.take wanted, ⟨rest.drop wanted, []⟩)
  | step :: steps =>
    if wanted = 0 then .ok ([], ⟨rest, step :: steps⟩)
    else
      match step with
      | .interrupted => fillLoop wanted rest steps
      | .failed msg => .error (.io msg)
      | .upTo more =>
        let got := rest.take (min (more + 1) wanted)
        if got = [] then .ok ([], ⟨rest, steps⟩)
        else do
          let (later, reader) ← fillLoop (wanted - got.length) (rest.drop got.length) steps
          pure (got ++ later, reader)

def fill (wanted : Nat) (reader : Reader) : Except Error (Bytes × Reader) :=
  fillLoop wanted reader.rest reader.steps

section Framing
variable [Checksum] {payload part rest : Bytes}

/-- The three parts that `write_record` writes. A length of 2^32 or more loses its
upper bytes in the cast to `u32`. -/
def recordParts (payload : Bytes) : List Bytes :=
  let len := encode 4 payload.length
  [encode 4 (Checksum.crc (len ++ payload)).toNat, len, payload]

def frame (payload : Bytes) : Bytes := (recordParts payload).flatten

def readRecord (reader : Reader) : Except Error (RecordRead × Reader) := do
  let (header, reader) ← fill headerLen reader
  if header.length = 0 then pure (.eof, reader)
  else if header.length < headerLen then pure (.truncated, reader)
  else
    let crc := decode (header.take 4)
    let len := decode (header.drop 4)
    if maxRecordLen < len then pure (.corrupt, reader)
    else
      let (payload, reader) ← fill len reader
      if payload.length < len then pure (.truncated, reader)
      else if (Checksum.crc (encode 4 len ++ payload)).toNat ≠ crc then pure (.corrupt, reader)
      else pure (.entry payload, reader)

/-- What the bytes read as, and what then is left. -/
def parse (bytes : Bytes) : RecordRead × Bytes :=
  let header := bytes.take headerLen
  let rest := bytes.drop headerLen
  if header.length = 0 then (.eof, rest)
  else if header.length < headerLen then (.truncated, rest)
  else
    let crc := decode (header.take 4)
    let len := decode (header.drop 4)
    if maxRecordLen < len then (.corrupt, rest)
    else if (rest.take len).length < len then (.truncated, rest.drop len)
    else if (Checksum.crc (encode 4 len ++ rest.take len)).toNat ≠ crc then
      (.corrupt, rest.drop len)
    else (.entry (rest.take len), rest.drop len)

omit [Checksum] in
/-- However the reads are split, `fill` gets the bytes that are there. -/
theorem fillLoop_ok {steps : List ReadStep} (sane : ∀ msg, .failed msg ∉ steps) (wanted : Nat)
    (rest : Bytes) : ∃ steps', fillLoop wanted rest steps =
      .ok (rest.take wanted, ⟨rest.drop wanted, steps'⟩) ∧ ∀ msg, .failed msg ∉ steps' := by
  induction steps generalizing wanted rest with
  | nil => exact ⟨[], rfl, by simp⟩
  | cons step steps ih =>
    have later : ∀ msg, .failed msg ∉ steps := fun msg inside =>
      sane msg (List.mem_cons_of_mem _ inside)
    unfold fillLoop
    split_ifs with done
    · subst done
      exact ⟨step :: steps, by simp, sane⟩
    cases step with
    | interrupted => exact ih later wanted rest
    | failed msg => exact absurd List.mem_cons_self (sane msg)
    | upTo more =>
      simp only
      split_ifs with none
      · have empty : rest = [] := by
          rcases List.take_eq_nil_iff.mp none with zero | empty
          · omega
          · exact empty
        exact ⟨steps, by simp [empty], later⟩
      · obtain ⟨k, size⟩ : ∃ k, k = (rest.take (min (more + 1) wanted)).length := ⟨_, rfl⟩
        have short : k ≤ wanted := by
          rw [size, List.length_take]
          omega
        have got : rest.take (min (more + 1) wanted) = rest.take k := by
          rw [List.take_eq_take_iff, size, List.length_take]
          omega
        obtain ⟨steps', filled, sane'⟩ := ih later (wanted - k) (rest.drop k)
        refine ⟨steps', ?_, sane'⟩
        rw [← size, filled, got, List.drop_drop, Nat.add_sub_cancel' short]
        show Except.ok (rest.take k ++ (rest.drop k).take (wanted - k), _) = _
        rw [← List.take_add, Nat.add_sub_cancel' short]

theorem readRecord_parse {reader : Reader} (sane : ∀ msg, .failed msg ∉ reader.steps) :
    ∃ steps, readRecord reader = .ok ((parse reader.rest).1, ⟨(parse reader.rest).2, steps⟩) ∧
      ∀ msg, .failed msg ∉ steps := by
  obtain ⟨steps, filled, sane⟩ := fillLoop_ok sane headerLen reader.rest
  obtain ⟨steps', filled', sane'⟩ := fillLoop_ok sane
    (decode ((reader.rest.take headerLen).drop 4)) (reader.rest.drop headerLen)
  simp only [readRecord, fill, filled, bind, Except.bind, parse]
  split_ifs
  · exact ⟨steps, rfl, sane⟩
  · exact ⟨steps, rfl, sane⟩
  · exact ⟨steps, rfl, sane⟩
  all_goals
    simp only [filled']
    split_ifs
    exact ⟨steps', rfl, sane'⟩

theorem parse_nil : parse [] = (.eof, []) := rfl

theorem parse_eof {bytes : Bytes} (found : (parse bytes).1 = .eof) : bytes = [] := by
  simp only [parse] at found
  split_ifs at found with none
  rw [List.length_take, headerLen] at none
  exact List.length_eq_zero_iff.mp (by omega)

def recordHeader (payload : Bytes) : Bytes :=
  encode 4 (Checksum.crc (encode 4 payload.length ++ payload)).toNat ++ encode 4 payload.length

theorem recordHeader_length (payload : Bytes) : (recordHeader payload).length = headerLen := by
  simp [recordHeader, headerLen]

theorem frame_eq (payload : Bytes) : frame payload = recordHeader payload ++ payload := by
  simp [frame, recordParts, recordHeader]

theorem frame_length (payload : Bytes) : (frame payload).length = headerLen + payload.length := by
  rw [frame_eq, List.length_append, recordHeader_length]

theorem parse_header (fits : payload.length ≤ maxRecordLen) (inside : rest <+: payload ++ part) :
    parse (recordHeader payload ++ rest) = if rest.length < payload.length
      then (.truncated, []) else (.entry payload, rest.drop payload.length) := by
  have length := recordHeader_length payload
  have small : payload.length < 256 ^ 4 := lt_of_le_of_lt fits (by decide)
  have header : (recordHeader payload ++ rest).take headerLen = recordHeader payload :=
    List.take_left' length
  have behind : (recordHeader payload ++ rest).drop headerLen = rest := List.drop_left' length
  have crc : decode ((recordHeader payload).take 4) =
      (Checksum.crc (encode 4 payload.length ++ payload)).toNat := by
    rw [recordHeader, List.take_left' (encode_length _ _), decode_encode (UInt32.toNat_lt _)]
  have len : decode ((recordHeader payload).drop 4) = payload.length := by
    rw [recordHeader, List.drop_left' (encode_length _ _), decode_encode small]
  simp only [parse, header, behind, length, len, crc]
  rw [if_neg (by decide), if_neg (Nat.lt_irrefl _), if_neg (Nat.not_lt.mpr fits), List.length_take]
  by_cases short : rest.length < payload.length
  · rw [if_pos (by omega), if_pos short, List.drop_eq_nil_of_le (Nat.le_of_lt short)]
  · have whole : rest.take payload.length = payload := by
      obtain ⟨later, same⟩ := inside
      have taken := congrArg (List.take payload.length) same
      rwa [List.take_append_of_le_length (by omega), List.take_left] at taken
    rw [if_neg (by omega), if_neg short, whole, if_neg (by simp)]

theorem parse_frame (fits : payload.length ≤ maxRecordLen) (rest : Bytes) :
    parse (frame payload ++ rest) = (.entry payload, rest) := by
  rw [frame_eq, List.append_assoc, parse_header fits List.prefix_rfl, List.length_append,
    if_neg (by omega), List.drop_left]

/-- Only a whole record reads as a payload. -/
theorem parse_exact {bytes : Bytes} (found : parse bytes = (.entry payload, rest)) :
    bytes = frame payload ++ rest ∧ payload.length ≤ maxRecordLen := by
  simp only [parse] at found
  split_ifs at found with none short large cut differs
  · cases found
  · cases found
  · cases found
  · cases found
  · cases found
  · have full : (bytes.take headerLen).length = headerLen := by
      rw [List.length_take] at short ⊢
      omega
    obtain ⟨same, rfl⟩ := Prod.mk.inj found
    have same := RecordRead.entry.inj same
    have size : payload.length = decode ((bytes.take headerLen).drop 4) := by
      rw [← same, List.length_take] at *
      omega
    have first : ((bytes.take headerLen).take 4).length = 4 := by
      rw [List.length_take, full]
      rfl
    have second : ((bytes.take headerLen).drop 4).length = 4 := by
      rw [List.length_drop, full]
      rfl
    have crc := encode_decode ((bytes.take headerLen).take 4)
    have len := encode_decode ((bytes.take headerLen).drop 4)
    rw [first, ← not_not.mp differs, same, ← size] at crc
    rw [second, ← size] at len
    refine ⟨?_, by omega⟩
    rw [frame_eq, recordHeader, crc, len, List.take_append_drop, ← same, List.append_assoc, ← size,
      List.take_append_drop, List.take_append_drop]

theorem parse_torn (fits : payload.length ≤ maxRecordLen)
    (torn : Framing.Torn frame payload part) :
    parse part = (if part = [] then .eof else .truncated, []) := by
  obtain ⟨inside, short⟩ := torn
  rw [frame_length] at short
  rw [frame_eq] at inside
  by_cases cut : part.length < headerLen
  · simp only [parse, List.take_of_length_le (Nat.le_of_lt cut),
      List.drop_eq_nil_of_le (Nat.le_of_lt cut), List.length_eq_zero_iff, if_pos cut]
    split_ifs <;> rfl
  · obtain ⟨rest, rfl⟩ := List.prefix_of_prefix_length_le (List.prefix_append _ payload) inside
      (by rw [recordHeader_length]; omega)
    rw [List.prefix_append_right_inj] at inside
    rw [List.length_append, recordHeader_length] at short
    have some_byte : recordHeader payload ++ rest ≠ [] := by
      intro empty
      rw [empty] at cut
      exact cut (by decide)
    rw [parse_header fits (inside.trans (List.prefix_append _ [])), if_pos (by omega),
      if_neg some_byte]

end Framing
end WalKv
