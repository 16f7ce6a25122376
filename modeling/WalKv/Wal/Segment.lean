import WalKv.Wal.Directory

/-! One segment of the write-ahead log: a file and the write buffer in front of
it. Reading goes through a fresh handle and sees what has left the buffer. -/
namespace WalKv

/-- `Segment`. Its path is given by its base index, and of its writer only the
bytes still buffered matter. -/
structure Segment where
  baseIndex : Nat
  buffer : Bytes
  bytes : Nat
  count : Nat
  deriving DecidableEq, Repr

/-- The capacity of a `BufWriter`. -/
def bufferCapacity : Nat := 8 * 1024

namespace Segment

/-- A method of a segment in its directory. -/
abbrev Method (α : Type) : Type := Fallible Stop (Dir × Segment) α

def onDir {α : Type} (m : Fallible Stop Dir α) : Method α :=
  Fallible.part Prod.fst (fun dir s => (dir, s.2)) m

def create (base : Nat) : Fallible Stop Dir Segment := do
  Dir.createNew base
  pure ⟨base, [], 0, 0⟩

/-- `flush_buf`: what has been written leaves the buffer. -/
def flushBuf : Method Unit := fun (dir, seg) =>
  if seg.buffer = [] then (.ok (), (dir, seg))
  else
    let (written, ended, dir) := dir.write seg.baseIndex seg.buffer
    (ended, (dir, { seg with buffer := seg.buffer.drop written }))

/-- `write_all` past the buffer. -/
def writeFile (bytes : Bytes) : Method Unit := fun (dir, seg) =>
  let (_, ended, dir) := dir.write seg.baseIndex bytes
  (ended, (dir, seg))

def buffered (bytes : Bytes) : Method Unit :=
  Fallible.modify fun (dir, seg) => (dir, { seg with buffer := seg.buffer ++ bytes })

/-- `BufWriter::write_all`. -/
def writeAll (bytes : Bytes) : Method Unit := do
  let (_, seg) ← Fallible.get
  if seg.buffer.length + bytes.length < bufferCapacity then buffered bytes
  else do
    Fallible.when (bufferCapacity < seg.buffer.length + bytes.length) flushBuf
    if bufferCapacity ≤ bytes.length then writeFile bytes else buffered bytes

def writeParts : List Bytes → Method Unit
  | [] => pure ()
  | part :: parts => do
    writeAll part
    writeParts parts

def sync : Method Unit := do
  flushBuf
  let (_, seg) ← Fallible.get
  onDir (Dir.syncAll seg.baseIndex)

/-- An error drops the segment: its writer tries once more to write what it holds, and how that
ends goes unseen. -/
def abandon {α : Type} (seg : Segment) (stop : Stop) : Fallible Stop Dir α := fun dir =>
  if stop = .crashed then (.error .crashed, dir)
  else
    let (ended, dir, _) := flushBuf (dir, seg)
    (.error (stop.unlessCrashed ended), dir)

/-- `remove`. What the writer of a deleted file holds is lost with the file. -/
def remove (seg : Segment) : Fallible Stop Dir Unit := fun dir =>
  match Dir.removeFile seg.baseIndex dir with
  | (.ok (), dir) => (.ok (), dir)
  | (.error stop, dir) => seg.abandon stop dir

section Records
variable [Checksum]

def append (payload : Bytes) : Method Unit := do
  writeParts (recordParts payload)
  Fallible.modify fun (dir, seg) =>
    (dir, { seg with bytes := seg.bytes + (headerLen + payload.length), count := seg.count + 1 })

/-- Whether all that is left reads as records. A record takes up some bytes, so
there are fewer records than bytes. -/
def restParsesCleanly : Nat → Reader → Except Error Bool
  | 0, _ => .ok false
  | fuel + 1, reader => do
    match ← readRecord reader with
    | (.entry _, reader) => restParsesCleanly fuel reader
    | (.eof, _) => pure true
    | (.truncated, _) | (.corrupt, _) => pure false

/-- The loop of `recover`: where the last good record ends, and how many there are. -/
def recoverLoop (path : String) (fileLen : Nat) : Nat → Reader → Nat → Nat → Except Error (Nat × Nat)
  | 0, _, goodOffset, count => .ok (goodOffset, count)
  | fuel + 1, reader, goodOffset, count => do
    match ← readRecord reader with
    | (.entry _, reader) =>
      recoverLoop path fileLen fuel reader (fileLen - reader.rest.length) (count + 1)
    | (.eof, _) | (.truncated, _) => pure (goodOffset, count)
    | (.corrupt, reader) =>
      let clean ← if fileLen - reader.rest.length < fileLen
        then restParsesCleanly (reader.rest.length + 1) reader else pure false
      if clean then
        throw (.corruption s!"crc mismatch in {path} at offset {goodOffset}")
      else pure (goodOffset, count)

def recover (base : Nat) : Fallible Stop Dir Segment := do
  let path := segmentPath (← Fallible.get).path base
  let reader ← Dir.read base
  let fileLen := reader.rest.length
  let (goodOffset, count) ←
    Fallible.lift ((recoverLoop path fileLen (fileLen + 1) reader 0 0).mapError .err)
  Dir.openWrite base
  Dir.setLen base goodOffset
  Dir.syncAll base
  pure ⟨base, [], goodOffset, count⟩

/-- What a `SegmentIter` yields until it is done. -/
def items : Nat → Reader → List (Except Error Bytes)
  | 0, _ => []
  | fuel + 1, reader =>
    match readRecord reader with
    | .ok (.entry payload, reader) => .ok payload :: items fuel reader
    | .ok (.eof, _) => []
    | .ok (.truncated, _) | .ok (.corrupt, _) =>
      [.error (.wal "unexpected partial/corrupt record while iterating")]
    | .error error => [.error error]

def iter (seg : Segment) : Fallible Stop Dir (List (Except Error Bytes)) := do
  let reader ← Dir.read seg.baseIndex
  pure (items (reader.rest.length + 1) reader)

end Records
end Segment
end WalKv
