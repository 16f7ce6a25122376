import WalKv.Raft.State

/-! The write-ahead log as one list of records: what a segmented log stands for
once everything in it is synced. -/
namespace WalKv

structure FlatLog where
  firstIndex : Nat
  records : List Bytes
  deriving DecidableEq, Repr

namespace FlatLog

/-- The log of an empty directory. -/
def empty : FlatLog := ⟨1, []⟩

def lastIndex (log : FlatLog) : Nat := log.firstIndex + log.records.length - 1

def append (payload : Bytes) : Fallible Stop FlatLog Nat := fun log =>
  (.ok (log.firstIndex + log.records.length), { log with records := log.records ++ [payload] })

def truncateSuffix (keepLast : Nat) : Fallible Stop FlatLog Unit := fun log =>
  if log.lastIndex ≤ keepLast then (.ok (), log)
  else if keepLast + 1 < log.firstIndex then
    (.error (.err (.wal s!"cannot truncate to {keepLast}: below compacted prefix at {log.firstIndex}")),
      log)
  else (.ok (), { log with records := log.records.take (keepLast + 1 - log.firstIndex) })

/-- Drop records below the given index, the newest record's successor at most. -/
def truncatePrefix (upTo : Nat) : Fallible Stop FlatLog Unit := fun log =>
  let dropped := min (upTo - log.firstIndex) log.records.length
  (.ok (), ⟨log.firstIndex + dropped, log.records.drop dropped⟩)

def readAll (log : FlatLog) : List (Nat × Bytes) :=
  log.records.zipIdx.map fun (record, i) => (log.firstIndex + i, record)

instance : WalOps FlatLog where
  append := append
  sync := pure ()
  truncateSuffix := truncateSuffix
  truncatePrefix := truncatePrefix
  readAll log := .ok log.readAll

end FlatLog
end WalKv
