import WalKv.Store.Memtable

/-! Snapshots and the store that takes them. A snapshot directory is the list of
its complete snapshot files; the temporary file and the rename that precede a
complete file are not seen by anyone who lists it. -/
namespace WalKv

structure SnapshotMeta where
  lastIncludedIndex : Nat
  lastIncludedTerm : Nat
  deriving DecidableEq, Repr

instance : Inhabited SnapshotMeta := ⟨0, 0⟩

structure SnapshotFile where
  meta' : SnapshotMeta
  data : KvMap

abbrev SnapshotDir := List SnapshotFile

namespace SnapshotDir

/-- Write the table as the snapshot of its index, then remove the superseded
ones; removals that fail are ignored. -/
def write (snapshotMeta : SnapshotMeta) (table : MemTable) (removed : SnapshotFile → Bool)
    (dir : SnapshotDir) : SnapshotDir :=
  ⟨snapshotMeta, table.map⟩ :: dir.filter fun file =>
    file.meta'.lastIncludedIndex ≠ snapshotMeta.lastIncludedIndex && !removed file

/-- The file with the highest index. -/
def newest : SnapshotDir → Option SnapshotFile
  | [] => none
  | file :: rest =>
    match newest rest with
    | some other =>
      if file.meta'.lastIncludedIndex ≤ other.meta'.lastIncludedIndex then some other
      else some file
    | none => some file

theorem newest_mem {dir : SnapshotDir} {file : SnapshotFile}
    (found : dir.newest = some file) : file ∈ dir := by
  induction dir with
  | nil => cases found
  | cons other rest ih =>
    unfold newest at found
    split at found
    · rename_i later newest
      split_ifs at found
      · cases found
        exact List.mem_cons_of_mem _ (ih newest)
      · cases found
        exact List.mem_cons_self
    · cases found
      exact List.mem_cons_self

theorem newest_none {dir : SnapshotDir} (none : dir.newest = none) : dir = [] := by
  cases dir with
  | nil => rfl
  | cons file rest =>
    unfold newest at none
    split at none
    · split_ifs at none
    · cases none

theorem newest_le {dir : SnapshotDir} {file other : SnapshotFile} (found : dir.newest = some file)
    (inside : other ∈ dir) : other.meta'.lastIncludedIndex ≤ file.meta'.lastIncludedIndex := by
  induction dir generalizing file with
  | nil => cases inside
  | cons first rest ih =>
    unfold newest at found
    split at found
    · rename_i later newest
      split_ifs at found with lower <;> cases found <;>
        rcases List.mem_cons.mp inside with rfl | member
      · exact lower
      · exact ih newest member
      · exact le_rfl
      · exact (ih newest member).trans (Nat.le_of_not_le lower)
    · rename_i none
      cases found
      rw [newest_none none] at inside
      rw [List.mem_singleton.mp inside]

theorem newest_cons {dir : SnapshotDir} {file : SnapshotFile}
    (above : ∀ other ∈ dir, other.meta'.lastIncludedIndex < file.meta'.lastIncludedIndex) :
    newest (file :: dir) = some file := by
  unfold newest
  split
  · rename_i other found
    rw [if_neg (Nat.not_le.mpr (above other (newest_mem found)))]
  · rfl

/-- What the newest file covers. -/
def latest (dir : SnapshotDir) : SnapshotMeta := (dir.newest.map SnapshotFile.meta').getD default

theorem latest_write {dir : SnapshotDir} {snapshotMeta : SnapshotMeta}
    (below : dir.latest.lastIncludedIndex ≤ snapshotMeta.lastIncludedIndex) (table : MemTable)
    (removed : SnapshotFile → Bool) : (dir.write snapshotMeta table removed).latest = snapshotMeta := by
  rw [latest, write, newest_cons]
  · rfl
  · intro other kept
    obtain ⟨inside, apart⟩ := List.mem_filter.mp kept
    simp only [Bool.and_eq_true, decide_eq_true_eq] at apart
    refine lt_of_le_of_ne ?_ apart.1
    cases found : dir.newest with
    | none =>
      rw [newest_none found] at inside
      cases inside
    | some file =>
      rw [latest, found] at below
      exact (newest_le found inside).trans below

def loadLatest (dir : SnapshotDir) : Option (SnapshotMeta × MemTable) :=
  dir.newest.map fun file =>
    (file.meta', MemTable.fromParts file.data file.meta'.lastIncludedIndex)

end SnapshotDir

/-- How writing a snapshot ends. It may also fail when the file has its name: the directory cannot
be synced, or the superseded files cannot be listed. -/
inductive SnapshotOutcome where
  | written (removed : SnapshotFile → Bool)
  | failed
  | left

structure Store where
  snapshotDir : SnapshotDir
  memtable : MemTable
  snapshotThreshold : Nat
  lastSnapshot : SnapshotMeta

namespace Store

/-- `Store::open`. -/
def opened (snapshotThreshold : Nat) (snapshotDir : SnapshotDir) : Store :=
  match snapshotDir.loadLatest with
  | some (lastSnapshot, memtable) => ⟨snapshotDir, memtable, snapshotThreshold, lastSnapshot⟩
  | none => ⟨snapshotDir, MemTable.new, snapshotThreshold, default⟩

/-- A store starts at the index of its snapshot. -/
theorem opened_lastApplied (snapshotThreshold : Nat) (snapshotDir : SnapshotDir) :
    (opened snapshotThreshold snapshotDir).memtable.lastApplied =
      (opened snapshotThreshold snapshotDir).lastSnapshot.lastIncludedIndex := by
  unfold opened SnapshotDir.loadLatest
  cases snapshotDir.newest <;> rfl

theorem opened_latest (snapshotThreshold : Nat) (snapshotDir : SnapshotDir) :
    (opened snapshotThreshold snapshotDir).snapshotDir = snapshotDir ∧
      (opened snapshotThreshold snapshotDir).lastSnapshot = snapshotDir.latest := by
  unfold opened SnapshotDir.loadLatest SnapshotDir.latest
  cases snapshotDir.newest <;> exact ⟨rfl, rfl⟩

def apply (index : Nat) (command : Command) (store : Store) : Store :=
  { store with memtable := store.memtable.apply index command }

def get (key : Bytes) (store : Store) : Option Bytes := store.memtable.get key

def lastApplied (store : Store) : Nat := store.memtable.lastApplied

def len (store : Store) : Nat := store.memtable.len

def shouldSnapshot (store : Store) : Bool :=
  store.snapshotThreshold ≤ store.lastApplied - store.lastSnapshot.lastIncludedIndex

/-- Take a snapshot at the applied index. -/
def snapshot (lastIncludedTerm : Nat) (removed : SnapshotFile → Bool) (store : Store) :
    SnapshotMeta × Store :=
  let snapshotMeta : SnapshotMeta := ⟨store.memtable.lastApplied, lastIncludedTerm⟩
  (snapshotMeta, { store with
    snapshotDir := store.snapshotDir.write snapshotMeta store.memtable removed
    lastSnapshot := snapshotMeta })

/-- `Store::snapshot`, with what it leaves if it fails. -/
def takeSnapshot (lastIncludedTerm : Nat) (store : Store) :
    SnapshotOutcome → Option SnapshotMeta × Store
  | .written removed =>
    let (snapshotMeta, store) := store.snapshot lastIncludedTerm removed
    (some snapshotMeta, store)
  | .failed => (none, store)
  | .left => (none, { store with
      snapshotDir := (store.snapshot lastIncludedTerm fun _ => false).2.snapshotDir })

section TakeSnapshot
variable (lastIncludedTerm : Nat) (store : Store) (outcome : SnapshotOutcome)

@[simp] theorem takeSnapshot_lastApplied :
    (store.takeSnapshot lastIncludedTerm outcome).2.lastApplied = store.lastApplied := by
  cases outcome <;> rfl

end TakeSnapshot

end Store
end WalKv
