import Mathlib.Data.List.Basic
import Mathlib.Order.Basic

/-! Logs as lists of entries stamped with a term, compared by prefix. Position
`i` counts entries, so position 0 lies before the first entry and has term 0. -/
namespace Consensus

class Stamped (E : Type) where
  term : E → Nat

variable {E : Type} {l l' p x : List E} {e e' : E} {k m n : Nat}

theorem prefix_take (longer : l <+: l') (within : k ≤ l.length) : l'.take k = l.take k := by
  obtain ⟨rest, rfl⟩ := longer
  exact List.take_append_of_le_length within

theorem prefix_getElem? (longer : l <+: l') (found : l[k]? = some e) : l'[k]? = some e := by
  obtain ⟨rest, rfl⟩ := longer
  rw [List.getElem?_append_left (List.getElem?_eq_some_iff.mp found).1, found]

theorem take_prefix_trans (longer : l <+: l') (k : Nat) : l.take k <+: l' :=
  (List.take_prefix k l).trans longer

theorem take_prefix_take (l : List E) (ordered : m ≤ n) : l.take m <+: l.take n := by
  rw [List.prefix_take_iff]
  exact ⟨List.take_prefix _ _, by simp only [List.length_take]; omega⟩

/-- What a follower keeps when it is shown `p`: its own log if that already
extends `p`, and exactly `p` otherwise. -/
noncomputable def merge (l p : List E) : List E :=
  open Classical in if p <+: l then l else p

theorem merge_kept (kept : p <+: l) : merge l p = l := if_pos kept

theorem merge_cut (cut : ¬ p <+: l) : merge l p = p := if_neg cut

theorem merge_cases (l p : List E) : merge l p = l ∧ p <+: l ∨ merge l p = p ∧ ¬ p <+: l := by
  by_cases kept : p <+: l
  · exact Or.inl ⟨merge_kept kept, kept⟩
  · exact Or.inr ⟨merge_cut kept, kept⟩

theorem shown_prefix_merge (l p : List E) : p <+: merge l p := by
  obtain ⟨same, kept⟩ | ⟨same, _⟩ := merge_cases l p
  · rwa [same]
  · exact same.symm ▸ List.prefix_rfl

/-- Being shown a prefix of `l'` never costs a part that `l'` has as well: a
shown prefix that stops inside that part is already in the log. -/
theorem common_prefix_merge (own : x <+: l) (shown : x <+: l') (m : Nat) :
    x <+: merge l (l'.take m) := by
  obtain ⟨same, _⟩ | ⟨same, cut⟩ := merge_cases l (l'.take m)
  · rwa [same]
  · rw [same]
    apply List.prefix_take_iff.mpr
    refine ⟨shown, ?_⟩
    by_contra longer
    apply cut
    have inside : l'.take m = x.take m := prefix_take shown (by omega)
    rw [inside]
    exact take_prefix_trans own m

theorem merge_take_take (h : List E) (ordered : k ≤ m) : merge (h.take k) (h.take m) = h.take m := by
  obtain ⟨same, kept⟩ | ⟨same, _⟩ := merge_cases (h.take k) (h.take m)
  · rw [same]
    exact (take_prefix_take h ordered).eq_of_length_le kept.length_le
  · exact same

section Stamped
variable [Stamped E]
open Stamped

def termAt (l : List E) (i : Nat) : Nat :=
  if i = 0 then 0 else (l[i - 1]?.map term).getD 0

def lastTerm (l : List E) : Nat := termAt l l.length

/-- The voter's order: later last term first, longer log second. -/
def UpToDate (voter candidate : List E) : Prop :=
  lastTerm voter < lastTerm candidate ∨
    lastTerm voter = lastTerm candidate ∧ voter.length ≤ candidate.length

@[simp] theorem termAt_zero (l : List E) : termAt l 0 = 0 := rfl

theorem termAt_succ (l : List E) (i : Nat) : termAt l (i + 1) = (l[i]?.map term).getD 0 := rfl

@[simp] theorem lastTerm_nil : lastTerm ([] : List E) = 0 := rfl

@[simp] theorem lastTerm_concat (l : List E) (e : E) : lastTerm (l ++ [e]) = term e := by
  simp [lastTerm, termAt]

theorem prefix_termAt (longer : l <+: l') (within : k ≤ l.length) :
    termAt l' k = termAt l k := by
  cases k with
  | zero => rfl
  | succ k =>
    obtain ⟨rest, rfl⟩ := longer
    simp only [termAt_succ, List.getElem?_append_left (show k < l.length by omega)]

theorem termAt_take (l : List E) (within : k ≤ m) : termAt (l.take m) k = termAt l k := by
  cases k with
  | zero => rfl
  | succ k => simp only [termAt_succ, List.getElem?_take, show k < m by omega, if_true]

/-- A nonempty log is its last entry on top of the rest. -/
theorem split_last (some_entry : l ≠ []) : ∃ p e, l = p ++ [e] ∧ lastTerm l = term e := by
  obtain none | ⟨p, e, rfl⟩ := List.eq_nil_or_concat' l
  · exact absurd none some_entry
  · exact ⟨p, e, rfl, lastTerm_concat p e⟩

end Stamped
end Consensus
