import WalKv.Raft.State
import WalKv.LittleEndian

/-! The layout that `bincode` gives a log entry under its default options:
fixed-width little-endian integers, a four-byte variant tag, byte vectors behind
their length. A number that a `u64` cannot hold has no encoding. -/
namespace WalKv.Fixint
open LittleEndian

def u64 (n : Nat) : Except Error Bytes :=
  if n < 256 ^ 8 then .ok (encode 8 n) else .error (.encode "number out of range")

def vec (bytes : Bytes) : Except Error Bytes := do
  let length ← u64 bytes.length
  pure (length ++ bytes)

def command : Command → Except Error Bytes
  | .put key value => do
    let key ← vec key
    let value ← vec value
    pure (encode 4 0 ++ (key ++ value))
  | .delete key => do
    let key ← vec key
    pure (encode 4 1 ++ key)
  | .noop => pure (encode 4 2)

def serialize (e : LogEntry) : Except Error Bytes := do
  let term ← u64 e.term
  let index ← u64 e.index
  let command ← command e.command
  pure (term ++ (index ++ command))

def readVec (bytes : Bytes) : Option (Bytes × Bytes) := do
  let (length, rest) ← splitNumber 8 bytes
  split length rest

def readCommand (bytes : Bytes) : Option Command := do
  let (tag, rest) ← splitNumber 4 bytes
  match tag with
  | 0 => do
    let (key, rest) ← readVec rest
    let (value, _) ← readVec rest
    pure (.put key value)
  | 1 => do
    let (key, _) ← readVec rest
    pure (.delete key)
  | 2 => pure .noop
  | _ => none

def readEntry (bytes : Bytes) : Option LogEntry := do
  let (term, rest) ← splitNumber 8 bytes
  let (index, rest) ← splitNumber 8 rest
  let command ← readCommand rest
  pure ⟨term, index, command⟩

def deserialize (bytes : Bytes) : Except Error LogEntry :=
  match readEntry bytes with
  | some entry => .ok entry
  | none => .error (.encode "invalid log entry")

theorem u64_ok {n : Nat} {bytes : Bytes} (encoded : u64 n = .ok bytes) (rest : Bytes) :
    splitNumber 8 (bytes ++ rest) = some (n, rest) := by
  unfold u64 at encoded
  split_ifs at encoded with fits
  cases encoded
  exact splitNumber_append fits rest

theorem vec_ok {payload bytes : Bytes} (encoded : vec payload = .ok bytes) (rest : Bytes) :
    readVec (bytes ++ rest) = some (payload, rest) := by
  obtain ⟨length, fits, same⟩ := Except.of_bind_ok encoded
  cases same
  simp only [readVec, List.append_assoc, u64_ok fits, Option.bind_eq_bind, Option.bind_some]
  exact split_append payload rest

theorem command_ok {c : Command} {bytes : Bytes} (encoded : command c = .ok bytes) :
    readCommand bytes = some c := by
  cases c with
  | put key value =>
    obtain ⟨first, keyOk, encoded⟩ := Except.of_bind_ok encoded
    obtain ⟨second, valueOk, same⟩ := Except.of_bind_ok encoded
    cases same
    have valueRead := vec_ok valueOk []
    rw [List.append_nil] at valueRead
    simp [readCommand, splitNumber_append, vec_ok keyOk, valueRead]
  | delete key =>
    obtain ⟨first, keyOk, same⟩ := Except.of_bind_ok encoded
    cases same
    have keyRead := vec_ok keyOk []
    rw [List.append_nil] at keyRead
    simp [readCommand, splitNumber_append, keyRead]
  | noop =>
    cases encoded
    rfl

instance layout : Bincode := ⟨serialize, deserialize⟩

instance : LawfulBincode where
  roundtrip {e b} encoded := by
    obtain ⟨term, termOk, encoded⟩ := Except.of_bind_ok (show serialize e = .ok b from encoded)
    obtain ⟨index, indexOk, encoded⟩ := Except.of_bind_ok encoded
    obtain ⟨rest, commandOk, same⟩ := Except.of_bind_ok encoded
    cases same
    show deserialize _ = _
    simp [deserialize, readEntry, u64_ok termOk, u64_ok indexOk, command_ok commandOk]

end WalKv.Fixint
