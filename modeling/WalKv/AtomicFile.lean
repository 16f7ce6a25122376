import Mathlib.Data.Option.Basic

/-! A file that is only ever replaced as a whole. New content is written under a temporary
name, synced and renamed, and then the directory is synced. Until then a power loss may undo
the renaming. -/
namespace AtomicFile
variable {β : Type}

/-- A file and how much of it is known to be on disk. -/
structure Inode (β : Type) where
  content : List β
  synced : Nat
  deriving DecidableEq, Repr

/-- A file that is on disk in full. -/
def Inode.whole (content : List β) : Inode β := ⟨content, content.length⟩

/-- What the name and the temporary name stand for, and what the name stood for when the
directory was last synced. -/
structure Names (β : Type) where
  file : Option (Inode β)
  temp : Option (Inode β)
  settled : Option (Inode β)
  deriving DecidableEq, Repr

namespace Names

/-- Open under the temporary name, created or emptied. -/
def create (names : Names β) : Names β := { names with temp := some ⟨[], 0⟩ }

def write (bytes : List β) (names : Names β) : Names β :=
  { names with temp := names.temp.map fun i => { i with content := i.content ++ bytes } }

def sync (names : Names β) : Names β :=
  { names with temp := names.temp.map fun i => { i with synced := i.content.length } }

def rename (names : Names β) : Names β :=
  match names.temp with
  | some i => { names with file := some i, temp := none }
  | none => names

def syncDir (names : Names β) : Names β := { names with settled := names.file }

/-- What a power loss leaves under the name: what it stands for now or stood for when the
directory was synced, with the part that is on disk and perhaps more. -/
def left (renamed : Bool) (cut : Nat) (names : Names β) : Option (List β) :=
  (if renamed then names.file else names.settled).map fun i => i.content.take (max i.synced cut)

/-- The names after a power loss. Anything may be left under the temporary name. -/
def powerLoss (renamed : Bool) (cut : Nat) (temp : Option (Inode β)) (names : Names β) : Names β :=
  ⟨(names.left renamed cut).map Inode.whole, temp, (names.left renamed cut).map Inode.whole⟩

/-- The name stands for the whole of `new`, and stood for the whole of `old`. -/
structure Shows (names : Names β) (new old : Option (List β)) : Prop where
  file : names.file = new.map Inode.whole
  settled : names.settled = old.map Inode.whole

namespace Shows
variable {names : Names β} {new old : Option (List β)}

theorem left (shows : names.Shows new old) (renamed : Bool) (cut : Nat) :
    names.left renamed cut = if renamed then new else old := by
  have full (content : Option (List β)) :
      (content.map Inode.whole).map (fun i => i.content.take (max i.synced cut)) = content := by
    cases content with
    | none => rfl
    | some content =>
      simp only [Option.map_some, Inode.whole]
      rw [List.take_of_length_le (Nat.le_max_left _ _)]
  cases renamed with
  | false => simpa only [Names.left, shows.settled, Bool.false_eq_true, if_false] using full old
  | true => simpa only [Names.left, shows.file, if_true] using full new

theorem create (shows : names.Shows new old) : names.create.Shows new old :=
  ⟨shows.file, shows.settled⟩

theorem write (shows : names.Shows new old) (bytes : List β) : (names.write bytes).Shows new old :=
  ⟨shows.file, shows.settled⟩

theorem sync (shows : names.Shows new old) : names.sync.Shows new old :=
  ⟨shows.file, shows.settled⟩

theorem rename (shows : names.Shows new old) {content : List β}
    (written : names.temp = some (Inode.whole content)) :
    names.rename.Shows (some content) old := by
  simp only [Names.rename, written]
  exact ⟨rfl, shows.settled⟩

theorem syncDir (shows : names.Shows new old) : names.syncDir.Shows new new :=
  ⟨shows.file, shows.file⟩

theorem powerLoss (shows : names.Shows new old) (renamed : Bool) (cut : Nat)
    (temp : Option (Inode β)) : (names.powerLoss renamed cut temp).Shows
      (if renamed then new else old) (if renamed then new else old) := by
  constructor
  · simp only [Names.powerLoss, shows.left]
  · simp only [Names.powerLoss, shows.left]

end Shows

theorem temp_written (names : Names β) (bytes : List β) :
    ((names.create.write bytes).sync).temp = some (Inode.whole bytes) := rfl

end Names
end AtomicFile
