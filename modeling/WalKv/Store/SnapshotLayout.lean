import WalKv.Raft.Bincode
import WalKv.Store.SnapshotDisk
import Mathlib.Data.List.Sort
import Mathlib.Data.Multiset.Sort

/-! The layout that `bincode` gives a snapshot file: the index and the term, then the
number of keys and each key with its value, in the order of the keys. Of a key that is repeated
the last value counts. -/
namespace WalKv.Fixint
open LittleEndian

abbrev Binding := Σ _ : Bytes, Bytes

/-- Keys come in lexicographic order of their bytes. -/
def Binding.rank (b : Binding) : List (List Nat) := [b.1.map UInt8.toNat, b.2.map UInt8.toNat]

def Binding.Precedes (a b : Binding) : Prop := a.rank ≤ b.rank

instance : DecidableRel Binding.Precedes := fun a b => inferInstanceAs (Decidable (a.rank ≤ b.rank))

instance : Std.Total Binding.Precedes := ⟨fun a b => le_total a.rank b.rank⟩

instance : IsTrans Binding Binding.Precedes := ⟨fun _ _ _ => le_trans⟩

theorem Binding.rank_injective : Function.Injective Binding.rank := by
  rintro ⟨k, v⟩ ⟨k', v'⟩ same
  have bytes : Function.Injective (List.map UInt8.toNat) :=
    List.map_injective_iff.mpr fun _ _ => UInt8.toNat_inj.mp
  simp only [rank, List.cons.injEq, and_true] at same
  rw [bytes same.1, bytes same.2]

/-- The bindings of a map in the order in which it is iterated. -/
def bindings (map : KvMap) : List Binding :=
  Quot.liftOn map.entries (List.insertionSort Binding.Precedes) fun a b perm =>
    List.Perm.eq_of_pairwise
      (fun _ _ _ _ first second => Binding.rank_injective (le_antisymm first second))
      (List.pairwise_insertionSort _ a) (List.pairwise_insertionSort _ b)
      ((List.perm_insertionSort _ a).trans (perm.trans (List.perm_insertionSort _ b).symm))

theorem bindings_toFinmap (map : KvMap) : (bindings map).reverse.toFinmap = map := by
  induction map using Finmap.induction_on with
  | _ l =>
    refine Finmap.ext_lookup fun key => ?_
    have perm : (bindings l.toFinmap).reverse.Perm l.entries :=
      (List.reverse_perm _).trans (List.perm_insertionSort _ _)
    rw [Finmap.dlookup_list_toFinmap, Finmap.lookup_toFinmap]
    exact (List.perm_dlookup key l.nodupKeys perm.symm).symm

def bindingList : List Binding → Except Error Bytes
  | [] => pure []
  | b :: rest => do
    let key ← vec b.1
    let value ← vec b.2
    let rest ← bindingList rest
    pure (key ++ (value ++ rest))

def readBindings : Nat → Bytes → Option (List Binding)
  | 0, _ => some []
  | n + 1, bytes => do
    let (key, rest) ← readVec bytes
    let (value, rest) ← readVec rest
    let bindings ← readBindings n rest
    pure (⟨key, value⟩ :: bindings)

def serializeSnapshot (file : SnapshotFile) : Except Error Bytes := do
  let index ← u64 file.meta'.lastIncludedIndex
  let term ← u64 file.meta'.lastIncludedTerm
  let count ← u64 (bindings file.data).length
  let data ← bindingList (bindings file.data)
  pure (index ++ (term ++ (count ++ data)))

def readSnapshot (bytes : Bytes) : Option SnapshotFile := do
  let (index, rest) ← splitNumber 8 bytes
  let (term, rest) ← splitNumber 8 rest
  let (count, rest) ← splitNumber 8 rest
  let bindings ← readBindings count rest
  pure ⟨⟨index, term⟩, bindings.reverse.toFinmap⟩

def deserializeSnapshot (bytes : Bytes) : Except Error SnapshotFile :=
  match readSnapshot bytes with
  | some file => .ok file
  | none => .error (.encode "invalid snapshot")

theorem bindingList_ok {list : List Binding} {bytes : Bytes} (encoded : bindingList list = .ok bytes) :
    readBindings list.length bytes = some list := by
  induction list generalizing bytes with
  | nil => rfl
  | cons b rest ih =>
    obtain ⟨key, keyOk, encoded⟩ := Except.of_bind_ok encoded
    obtain ⟨value, valueOk, encoded⟩ := Except.of_bind_ok encoded
    obtain ⟨tail, tailOk, same⟩ := Except.of_bind_ok encoded
    cases same
    simp [readBindings, vec_ok keyOk, vec_ok valueOk, ih tailOk]

instance snapshotLayout : SnapshotCodec := ⟨serializeSnapshot, deserializeSnapshot⟩

instance : LawfulSnapshotCodec where
  roundtrip {file bytes} encoded := by
    obtain ⟨index, indexOk, encoded⟩ :=
      Except.of_bind_ok (show serializeSnapshot file = .ok bytes from encoded)
    obtain ⟨term, termOk, encoded⟩ := Except.of_bind_ok encoded
    obtain ⟨count, countOk, encoded⟩ := Except.of_bind_ok encoded
    obtain ⟨data, dataOk, same⟩ := Except.of_bind_ok encoded
    cases same
    show deserializeSnapshot _ = _
    simp [deserializeSnapshot, readSnapshot, u64_ok indexOk, u64_ok termOk, u64_ok countOk,
      bindingList_ok dataOk, bindings_toFinmap]

end WalKv.Fixint
