import WalKv.Wal.Record

/-! Reading a stream of records call by call, wherever the stream is cut and however
the reader splits its reads. -/
namespace WalKv
open Framing (stream whole)

section Records
variable [Checksum] {payloads : List Bytes} {steps : List ReadStep} {n : Nat}

/-- What so many successive calls of `read_record` return. -/
def readCalls : Nat → Reader → Except Error (List RecordRead)
  | 0, _ => .ok []
  | calls + 1, reader => do
    let (read, reader) ← readRecord reader
    let later ← readCalls calls reader
    pure (read :: later)

/-- What they return as far as the bytes are concerned. -/
def parses : Nat → Bytes → List RecordRead
  | 0, _ => []
  | calls + 1, bytes => (parse bytes).1 :: parses calls (parse bytes).2

theorem readCalls_parses (sane : ∀ msg, .failed msg ∉ steps) (calls : Nat) (bytes : Bytes) :
    readCalls calls ⟨bytes, steps⟩ = .ok (parses calls bytes) := by
  induction calls generalizing bytes steps with
  | zero => rfl
  | succ calls ih =>
    have sane₀ : ∀ msg, .failed msg ∉ (⟨bytes, steps⟩ : Reader).steps := sane
    obtain ⟨steps', read, sane'⟩ := readRecord_parse sane₀
    simp only [readCalls, read, bind, Except.bind, ih sane', parses]
    rfl

theorem parses_take (calls more : Nat) (bytes : Bytes) :
    parses calls bytes = (parses (calls + more) bytes).take calls := by
  induction calls generalizing bytes with
  | zero => simp [parses]
  | succ calls ih =>
    rw [Nat.add_right_comm, parses, parses, List.take_succ_cons, ← ih]

theorem parses_nil (calls : Nat) : parses calls [] = List.replicate calls .eof := by
  induction calls with
  | zero => rfl
  | succ calls ih => rw [parses, parse_nil, ih, List.replicate_succ]

theorem parses_stream (fits : ∀ payload ∈ payloads, payload.length ≤ maxRecordLen) (calls : Nat)
    (rest : Bytes) : parses (payloads.length + calls) (stream frame payloads ++ rest) =
      payloads.map .entry ++ parses calls rest := by
  induction payloads with
  | nil => simp
  | cons payload payloads ih =>
    have small := fits payload List.mem_cons_self
    have later := ih fun x member => fits x (List.mem_cons_of_mem _ member)
    rw [List.length_cons, Nat.add_right_comm, parses, Framing.stream_cons, List.append_assoc,
      parse_frame small, later]
    rfl

/-- So many bytes are some whole frames of the stream. -/
def Boundary (payloads : List Bytes) (n : Nat) : Prop :=
  ∃ i ≤ payloads.length, ((payloads.take i).flatMap frame).length = n

theorem boundary_iff (payloads : List Bytes) (n : Nat) : Boundary payloads n ↔
    (stream frame (payloads.take (whole frame payloads n))).length = n := by
  constructor
  · rintro ⟨i, within, ends⟩
    have below : i ≤ whole frame payloads n :=
      (Framing.le_whole_iff within).mpr (Nat.le_of_eq ends)
    have longer : stream frame (payloads.take i) <+:
        stream frame (payloads.take (whole frame payloads n)) :=
      Framing.stream_prefix (List.take_prefix_take_left below)
    have all := (Framing.le_whole_iff (Framing.whole_le frame payloads n)).mp (Nat.le_refl _)
    have := longer.length_le
    have ends : (stream frame (payloads.take i)).length = n := ends
    omega
  · intro ends
    exact ⟨_, Framing.whole_le frame payloads n, ends⟩

/-- However many calls of `read_record` are made on the first `n` bytes of a stream of
records, they return the records whose frames end at or before `n`, then the end of the
file at a boundary or a torn record elsewhere, and from there on the end of the file. -/
theorem readCalls_cut (fits : ∀ payload ∈ payloads, payload.length ≤ maxRecordLen)
    (within : n ≤ (payloads.flatMap frame).length) (sane : ∀ msg, .failed msg ∉ steps) :
    ∃ k ≤ payloads.length,
      (∀ i ≤ payloads.length, ((payloads.take i).flatMap frame).length ≤ n ↔ i ≤ k) ∧
      ∃ last : RecordRead,
        (Boundary payloads n ∧ last = .eof ∨ ¬ Boundary payloads n ∧ last = .truncated) ∧
        ∀ calls, readCalls calls ⟨(payloads.flatMap frame).take n, steps⟩ =
          .ok (((payloads.take k).map RecordRead.entry ++
            last :: List.replicate calls .eof).take calls) := by
  obtain ⟨part, split, torn⟩ := Framing.take_stream frame payloads n
  have bounded := Framing.whole_le frame payloads n
  have boundary := boundary_iff payloads n
  have ended : ∀ i ≤ payloads.length,
      ((payloads.take i).flatMap frame).length ≤ n ↔ i ≤ whole frame payloads n :=
    fun i short => (Framing.le_whole_iff short).symm
  generalize whole frame payloads n = k at split bounded boundary ended
  have total : (stream frame (payloads.take k)).length + part.length = n := by
    rw [← List.length_append, ← split, List.length_take]
    exact Nat.min_eq_left within
  have rest : parse part = (if part = [] then .eof else .truncated, []) := by
    rcases torn with rfl | ⟨payload, inside, torn⟩
    · rfl
    · exact parse_torn (fits payload inside) torn
  have fitting : ∀ payload ∈ payloads.take k, payload.length ≤ maxRecordLen :=
    fun payload inside => fits payload (List.mem_of_mem_take inside)
  refine ⟨k, bounded, ended, (parse part).1, ?_, ?_⟩
  · rw [boundary, congrArg Prod.fst rest]
    by_cases empty : part = []
    · subst empty
      exact .inl ⟨total, rfl⟩
    · have longer := List.length_pos_iff.mpr empty
      exact .inr ⟨by omega, if_neg empty⟩
  · intro calls
    have all := parses_stream fitting (calls + 1) part
    rw [parses, congrArg Prod.snd rest, parses_nil, ← split, List.length_take_of_le bounded] at all
    rw [readCalls_parses sane, parses_take calls (k + 1), ← all,
      show k + (calls + 1) = calls + (k + 1) by omega]
    rfl

end Records

/-- A record of one byte and one of two. -/
def shortRecords : List Bytes := [[1], [2, 3]]

/-- They are cut inside the length field of the second and read one byte at a time. -/
theorem readCalls_cut_header : ∃ k ≤ shortRecords.length,
    (∀ i ≤ shortRecords.length, ((shortRecords.take i).flatMap frame).length ≤ 15 ↔ i ≤ k) ∧
      ∃ last : RecordRead,
        (Boundary shortRecords 15 ∧ last = .eof ∨ ¬ Boundary shortRecords 15 ∧ last = .truncated) ∧
        ∀ calls, readCalls calls
            ⟨(shortRecords.flatMap frame).take 15, List.replicate 20 (.upTo 0)⟩ =
          .ok (((shortRecords.take k).map RecordRead.entry ++
            last :: List.replicate calls .eof).take calls) :=
  readCalls_cut (by decide) (by decide) (by simp)

end WalKv
