import WalKv.Consensus.Protocol
import Mathlib.Data.Finset.Card
import Mathlib.Data.List.Sort

/-! Majorities of a list of members: any two of them meet, and the value at the
middle of a descending order is reached by a majority. -/
namespace Consensus

variable {N : Type} [DecidableEq N] {members : List N} {P Q : N → Prop}

/-- More than half of the members satisfy `P`. -/
def Majority (members : List N) (P : N → Prop) : Prop :=
  ∃ voters : Finset N, members.length / 2 + 1 ≤ voters.card ∧
    ∀ v ∈ voters, v ∈ members ∧ P v

omit [DecidableEq N] in
theorem Majority.mono (majority : Majority members P) (implies : ∀ v ∈ members, P v → Q v) :
    Majority members Q := by
  obtain ⟨voters, size, inside⟩ := majority
  exact ⟨voters, size, fun v given =>
    ⟨(inside v given).1, implies v (inside v given).1 (inside v given).2⟩⟩

omit [DecidableEq N] in
theorem Majority.perm {others : List N} (majority : Majority members P)
    (same : members.Perm others) : Majority others P := by
  obtain ⟨voters, size, inside⟩ := majority
  exact ⟨voters, same.length_eq ▸ size, fun v given =>
    ⟨same.mem_iff.mp (inside v given).1, (inside v given).2⟩⟩

theorem Majority.meet (first : Majority members P) (second : Majority members Q) :
    ∃ v ∈ members, P v ∧ Q v := by
  obtain ⟨votersP, sizeP, insideP⟩ := first
  obtain ⟨votersQ, sizeQ, insideQ⟩ := second
  have within {voters : Finset N} (inside : ∀ v ∈ voters, v ∈ members) :
      voters ⊆ members.toFinset := fun v given => List.mem_toFinset.mpr (inside v given)
  have bound := List.toFinset_card_le members
  obtain ⟨v, shared⟩ := Finset.inter_nonempty_of_card_lt_card_add_card
    (within fun v given => (insideP v given).1) (within fun v given => (insideQ v given).1)
    (by omega)
  obtain ⟨inP, inQ⟩ := Finset.mem_inter.mp shared
  exact ⟨v, (insideP v inP).1, (insideP v inP).2, (insideQ v inQ).2⟩

def majorities (members : List N) : Quorums N where
  IsQuorum voters := Majority members (· ∈ voters)
  meet first second := by
    obtain ⟨v, _, shared⟩ := first.meet second
    exact ⟨v, shared⟩

theorem count_of_descending {values : List Nat} {k x : Nat} (sorted : values.Pairwise (· ≥ ·))
    (found : values[k]? = some x) : k + 1 ≤ values.countP (x ≤ ·) := by
  obtain ⟨bound, rfl⟩ := List.getElem?_eq_some_iff.mp found
  have reached : ∀ y ∈ values.take (k + 1), decide (values[k] ≤ y) = true := by
    intro y member
    obtain ⟨i, inside, rfl⟩ := List.mem_iff_getElem.mp member
    simp only [List.length_take] at inside
    rw [List.getElem_take, decide_eq_true_eq]
    rcases Nat.lt_or_eq_of_le (show i ≤ k by omega) with earlier | same
    · exact List.pairwise_iff_getElem.mp sorted i k (by omega) bound earlier
    · subst same
      exact Nat.le_refl _
  have counted : (values.take (k + 1)).countP (values[k] ≤ ·) = k + 1 := by
    rw [List.countP_eq_length.mpr reached, List.length_take]
    omega
  calc k + 1 = (values.take (k + 1)).countP (values[k] ≤ ·) := counted.symm
    _ ≤ values.countP (values[k] ≤ ·) := (List.take_sublist _ _).countP_le

/-- The value at position `k` of a descending list is the largest that `k + 1` values reach. -/
theorem count_iff_of_descending {values : List Nat} {k x n : Nat}
    (sorted : values.Pairwise (· ≥ ·)) (found : values[k]? = some x) :
    k + 1 ≤ values.countP (n ≤ ·) ↔ n ≤ x := by
  constructor
  · intro counted
    by_contra above
    obtain ⟨bound, rfl⟩ := List.getElem?_eq_some_iff.mp found
    have short : ∀ y ∈ values.drop k, ¬ decide (n ≤ y) = true := by
      intro y member
      obtain ⟨i, inside, rfl⟩ := List.mem_iff_getElem.mp member
      simp only [List.length_drop] at inside
      have below : values[k + i] ≤ values[k] := by
        rcases Nat.eq_zero_or_pos i with rfl | later
        · exact le_rfl
        · exact List.pairwise_iff_getElem.mp sorted k (k + i) bound (by omega) (by omega)
      simp only [List.getElem_drop, decide_eq_true_eq]
      omega
    have front : (values.take k).countP (n ≤ ·) ≤ k :=
      List.countP_le_length.trans (List.length_take_le k values)
    rw [← List.take_append_drop k values, List.countP_append, List.countP_eq_zero.mpr short] at counted
    omega
  · intro below
    refine (count_of_descending sorted found).trans (List.countP_mono_left fun y _ reached => ?_)
    simp only [decide_eq_true_eq] at reached ⊢
    exact below.trans reached

theorem majority_of_middle {value : N → Nat} {x : Nat} (distinct : members.Nodup)
    (found : ((members.map value).insertionSort (· ≥ ·))[members.length / 2]? = some x) :
    Majority members (fun v => x ≤ value v) := by
  have counted := count_of_descending (List.pairwise_insertionSort _ _) found
  rw [(List.perm_insertionSort _ _).countP_eq, List.countP_map, List.countP_eq_length_filter]
    at counted
  refine ⟨(members.filter ((x ≤ ·) ∘ value)).toFinset, ?_, ?_⟩
  · rw [List.toFinset_card_of_nodup (distinct.filter _)]
    exact counted
  · intro v given
    obtain ⟨member, reached⟩ := List.mem_filter.mp (List.mem_toFinset.mp given)
    exact ⟨member, of_decide_eq_true reached⟩

end Consensus
