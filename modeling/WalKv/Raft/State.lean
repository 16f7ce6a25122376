import WalKv.Config
import WalKv.Store.Snapshot

/-! Core Raft types, and the two durable things a node owns besides its
snapshots: the hard-state file and the write-ahead log. -/
namespace WalKv

inductive Role where
  | follower
  | candidate
  | leader
  deriving DecidableEq, Repr

structure LogEntry where
  term : Nat
  index : Nat
  command : Command
  deriving DecidableEq, Repr

instance : LawfulBEq (List LogEntry) := inferInstance

/-- `bincode` on log entries. -/
class Bincode where
  serialize : LogEntry → Except Error Bytes
  deserialize : Bytes → Except Error LogEntry

/-- What was encoded decodes to itself. -/
class LawfulBincode [Bincode] : Prop where
  roundtrip : ∀ {e b}, Bincode.serialize e = .ok b → Bincode.deserialize b = .ok e

structure HardState where
  currentTerm : Nat
  votedFor : Option Nat
  deriving DecidableEq, Repr

instance : Inhabited HardState := ⟨0, none⟩

/-- How one `HardState::persist` ends: an error leaves the file as it was or
already replaced, never in between. -/
inductive PersistOutcome where
  | ok
  | errOld
  | errNew
  deriving DecidableEq, Repr

/-- The file at `hard_path`, absent until the first persist, with the outcomes
of the next persists. When none is listed a persist succeeds. -/
structure HardFile where
  content : Option HardState
  outcomes : List PersistOutcome
  deriving DecidableEq, Repr

namespace HardFile

/-- A file that has never been written, on a disk without faults. -/
def absent : HardFile := ⟨none, []⟩

def load (file : HardFile) : HardState := file.content.getD default

def persist (hard : HardState) : Fallible Stop HardFile Unit := fun file =>
  match file.outcomes with
  | [] => (.ok (), ⟨some hard, []⟩)
  | .ok :: rest => (.ok (), ⟨some hard, rest⟩)
  | .errOld :: rest => (.error (.err (.io "persist failed")), ⟨file.content, rest⟩)
  | .errNew :: rest => (.error (.err (.io "persist failed")), ⟨some hard, rest⟩)

end HardFile

/-- What the core asks of its log. The record operations return the index that
was assigned, or stop; `readAll` pairs every surviving record with its index. -/
class WalOps (W : Type) where
  append : Bytes → Fallible Stop W Nat
  sync : Fallible Stop W Unit
  truncateSuffix : Nat → Fallible Stop W Unit
  truncatePrefix : Nat → Fallible Stop W Unit
  readAll : W → Except Stop (List (Nat × Bytes))

end WalKv
