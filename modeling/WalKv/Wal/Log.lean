import WalKv.Wal.Segment
import WalKv.Raft.State

/-! The segmented write-ahead log. -/
namespace WalKv

/-- `Log` with the state of its directory. The last segment is the one appended to. -/
structure Log where
  dir : Dir
  maxSegmentBytes : Nat
  segments : List Segment
  firstIndex : Nat
  lastIndex : Nat
  deriving DecidableEq, Repr

namespace Log

abbrev Method (α : Type) : Type := Fallible Stop Log α

def onDir {α : Type} (m : Fallible Stop Dir α) : Method α :=
  Fallible.part Log.dir (fun dir log => { log with dir }) m

/-- Run a method of the last segment. -/
def onLast {α : Type} (m : Segment.Method α) : Method α := fun log =>
  match log.segments.getLast? with
  | some seg =>
    let (ended, dir, seg) := m (log.dir, seg)
    (ended, { log with dir, segments := log.segments.dropLast ++ [seg] })
  | none => (.error (.panic "called `Option::unwrap()` on a `None` value"), log)

/-- Run a method of a segment that is not in the log yet. -/
def onFresh (m : Segment.Method Unit) (seg : Segment) : Method Segment := fun log =>
  match m (log.dir, seg) with
  | (.ok (), dir, seg) => (.ok seg, { log with dir })
  | (.error stop, dir, seg) =>
    let (ended, dir) := seg.abandon stop dir
    (ended, { log with dir })

def pop : Method Unit := Fallible.modify fun log =>
  { log with segments := log.segments.dropLast }

def push (seg : Segment) : Method Unit := Fallible.modify fun log =>
  { log with segments := log.segments ++ [seg] }

def discoverSegments (dir : Dir) : Except Error (List Nat) :=
  match dir.malformed with
  | [] => .ok (dir.files.map Prod.fst)
  | name :: _ => .error (.wal s!"malformed segment file name: {name}")

def syncSegments : List Segment → Dir → Except Stop Unit × Dir × List Segment
  | [], dir => (.ok (), dir, [])
  | seg :: rest, dir =>
    match Segment.sync (dir, seg) with
    | (.ok (), dir, seg) =>
      let (ended, dir, rest) := syncSegments rest dir
      (ended, dir, seg :: rest)
    | (.error stop, dir, seg) => (.error stop, dir, seg :: rest)

def sync : Method Unit := fun log =>
  let (ended, dir, segments) := syncSegments log.segments log.dir
  (ended, { log with dir, segments })

/-- The loop of `truncate_prefix`, over the segments there are. -/
def dropLeading (upToIndex : Nat) : Nat → Method Unit
  | 0 => pure ()
  | fuel + 1 => do
    match (← Fallible.get).segments with
    | seg :: next :: rest =>
      if seg.baseIndex + max seg.count 1 - 1 < upToIndex then do
        Fallible.modify fun log => { log with segments := next :: rest }
        onDir seg.remove
        dropLeading upToIndex fuel
      else pure ()
    | _ => pure ()

def truncatePrefix (upToIndex : Nat) : Method Unit := do
  dropLeading upToIndex (← Fallible.get).segments.length
  let log ← Fallible.get
  match log.segments.head? with
  | some seg => Fallible.modify fun log => { log with firstIndex := seg.baseIndex }
  | none => Fallible.stop (.panic "called `Option::unwrap()` on a `None` value")

/-- The first loop of `truncate_suffix`: delete trailing segments that begin past
the cut. -/
def dropTrailing (keepLast : Nat) : Nat → Method Unit
  | 0 => pure ()
  | fuel + 1 => do
    let log ← Fallible.get
    match log.segments.getLast? with
    | some seg =>
      if 1 < log.segments.length ∧ keepLast < seg.baseIndex then do
        pop
        onDir seg.remove
        dropTrailing keepLast fuel
      else pure ()
    | none => pure ()

/-- The records of a segment from index `i` up to `keepLast`. -/
def survivors (keepLast : Nat) : Nat → List (Except Error Bytes) → Except Error (List Bytes)
  | _, [] => .ok []
  | i, item :: items =>
    if keepLast < i then .ok []
    else do
      let payload ← item
      let rest ← survivors keepLast (i + 1) items
      pure (payload :: rest)

/-- The number of records present. -/
def len (log : Log) : Nat :=
  if log.firstIndex ≤ log.lastIndex then log.lastIndex - log.firstIndex + 1 else 0

def isEmpty (log : Log) : Bool := log.len = 0

section Records
variable [Checksum]

def recoverAll : List Nat → Fallible Stop Dir (List Segment)
  | [] => pure []
  | base :: bases => do
    let seg ← Segment.recover base
    let rest ← recoverAll bases
    pure (seg :: rest)

def «open» (maxSegmentBytes : Nat) : Fallible Stop Dir Log := do
  let bases ← Fallible.lift ((discoverSegments (← Fallible.get)).mapError .err)
  let segments ← if bases = [] then do
      let seg ← Segment.create 1
      pure [seg]
    else recoverAll (bases.insertionSort (· ≤ ·))
  match segments.head?, segments.getLast? with
  | some first, some last =>
    let lastIndex := if last.count = 0 then last.baseIndex - 1
      else last.baseIndex + last.count - 1
    pure ⟨← Fallible.get, maxSegmentBytes, segments, first.baseIndex, lastIndex⟩
  | _, _ => Fallible.stop (.panic "called `Option::unwrap()` on a `None` value")

def append (payload : Bytes) : Method Nat := do
  let log ← Fallible.get
  match log.segments.getLast? with
  | none => Fallible.stop (.panic "called `Option::unwrap()` on a `None` value")
  | some active => do
    Fallible.when (log.maxSegmentBytes ≤ active.bytes ∧ 0 < active.count) do
      let seg ← onDir (Segment.create (log.lastIndex + 1))
      push seg
    onLast (Segment.append payload)
    Fallible.modify fun log => { log with lastIndex := log.lastIndex + 1 }
    pure (log.lastIndex + 1)

/-- The records of a segment with their indices. -/
def numbered : Nat → List (Except Error Bytes) → Except Error (List (Nat × Bytes))
  | _, [] => .ok []
  | i, item :: items => do
    let payload ← item
    let rest ← numbered (i + 1) items
    pure ((i, payload) :: rest)

def readSegments : List Segment → Fallible Stop Dir (List (Nat × Bytes))
  | [] => pure []
  | seg :: rest => do
    let items ← seg.iter
    let records ← Fallible.lift ((numbered seg.baseIndex items).mapError .err)
    let later ← readSegments rest
    pure (records ++ later)

def readAll : Method (List (Nat × Bytes)) := do
  onDir (readSegments (← Fallible.get).segments)

def appendAll : List Bytes → Segment.Method Unit
  | [] => pure ()
  | payload :: rest => do
    Segment.append payload
    appendAll rest

/-- The second part of `truncate_suffix`: rewrite the segment that straddles the
cut. -/
def rewriteLast (keepLast : Nat) : Method Unit := do
  match (← Fallible.get).segments.getLast? with
  | none => Fallible.stop (.panic "called `Option::unwrap()` on a `None` value")
  | some seg => do
    let items ← onDir seg.iter
    let kept ← Fallible.lift ((survivors keepLast seg.baseIndex items).mapError .err)
    pop
    onDir seg.remove
    let fresh ← onDir (Segment.create seg.baseIndex)
    let fresh ← onFresh (appendAll kept) fresh
    let fresh ← onFresh Segment.sync fresh
    push fresh

def truncateSuffix (keepLast : Nat) : Method Unit := do
  let log ← Fallible.get
  if log.lastIndex ≤ keepLast then pure ()
  else if keepLast + 1 < log.firstIndex then
    Fallible.stop (.err (.wal
      s!"cannot truncate to {keepLast}: below compacted prefix at {log.firstIndex}"))
  else do
    dropTrailing keepLast log.segments.length
    rewriteLast keepLast
    Fallible.modify fun log => { log with lastIndex := keepLast }

instance : WalOps Log where
  append := append
  sync := sync
  truncateSuffix := truncateSuffix
  truncatePrefix := truncatePrefix
  readAll log := (readAll log).1

end Records
end Log
end WalKv
