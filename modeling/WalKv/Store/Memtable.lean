import WalKv.Error
import Mathlib.Data.Finmap

/-! The state machine: a map folded from committed commands. Applying an index
that is not above `lastApplied` does nothing. The assertion that indices arrive
without a gap is a debug assertion and is compiled out here. -/
namespace WalKv

inductive Command where
  | put (key value : Bytes)
  | delete (key : Bytes)
  | noop
  deriving DecidableEq, Repr

/-- `BTreeMap<Vec<u8>, Vec<u8>>`, up to its iteration order. -/
abbrev KvMap := Finmap (fun _ : Bytes => Bytes)

/-- The effect of one command on the map. -/
def Command.run : Command → KvMap → KvMap
  | .put key value, map => map.insert key value
  | .delete key, map => map.erase key
  | .noop, map => map

structure MemTable where
  map : KvMap
  lastApplied : Nat

namespace MemTable

def new : MemTable := ⟨∅, 0⟩

def fromParts (map : KvMap) (lastApplied : Nat) : MemTable := ⟨map, lastApplied⟩

def apply (index : Nat) (command : Command) (table : MemTable) : MemTable :=
  if index ≤ table.lastApplied then table
  else ⟨command.run table.map, index⟩

def get (key : Bytes) (table : MemTable) : Option Bytes := table.map.lookup key

def len (table : MemTable) : Nat := table.map.keys.card

end MemTable
end WalKv
