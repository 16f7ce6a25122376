import Mathlib.Data.List.Basic

/-! Lists of values under keys, in a fixed order. -/
namespace Keyed

variable {K V : Type} [DecidableEq K] {key : K} {value other : V} {l first rest : List (K × V)}

/-- Replace the value under a key where it stands. -/
def put (key : K) (value : V) : List (K × V) → List (K × V)
  | [] => []
  | entry :: rest => if entry.1 = key then (key, value) :: rest else entry :: put key value rest

theorem put_self (found : l.lookup key = some value) : put key value l = l := by
  induction l with
  | nil => rfl
  | cons entry l ih =>
    rw [put]
    split_ifs with here
    · subst here
      rw [List.lookup_cons_self] at found
      rw [← Option.some.inj found]
    · rw [ih (by rwa [List.lookup_cons, beq_eq_false_iff_ne.mpr (Ne.symm here)] at found)]

theorem put_put (key : K) (value other : V) (l : List (K × V)) :
    put key value (put key other l) = put key value l := by
  induction l with
  | nil => rfl
  | cons entry l ih =>
    by_cases here : entry.1 = key
    · simp [put, here]
    · simp [put, here, ih]

theorem put_keys (key : K) (value : V) (l : List (K × V)) :
    (put key value l).map Prod.fst = l.map Prod.fst := by
  induction l with
  | nil => rfl
  | cons entry l ih =>
    rw [put]
    split_ifs with here
    · simp [here]
    · simp [ih]

theorem mem_put {entry : K × V} (inside : entry ∈ put key value l) :
    entry = (key, value) ∨ entry ∈ l := by
  induction l with
  | nil => cases inside
  | cons first l ih =>
    rw [put] at inside
    split_ifs at inside
    · exact (List.mem_cons.mp inside).imp_right (List.mem_cons_of_mem _)
    · rcases List.mem_cons.mp inside with rfl | inside
      · exact Or.inr List.mem_cons_self
      · exact (ih inside).imp_right (List.mem_cons_of_mem _)

theorem lookup_put (found : l.lookup key = some other) :
    (put key value l).lookup key = some value := by
  induction l with
  | nil => cases found
  | cons entry l ih =>
    rw [put]
    split_ifs with here
    · exact List.lookup_cons_self
    · have absent := beq_eq_false_iff_ne.mpr (Ne.symm here)
      rw [List.lookup_cons, absent] at found ⊢
      exact ih found

theorem lookup_put_other {another : K} (different : another ≠ key) :
    (put key value l).lookup another = l.lookup another := by
  induction l with
  | nil => rfl
  | cons entry l ih =>
    rw [put]
    split_ifs with here
    · have absent : (another == entry.1) = false := beq_false_of_ne (here ▸ different)
      rw [List.lookup_cons, List.lookup_cons, absent, beq_false_of_ne different]
    · rw [List.lookup_cons, List.lookup_cons, ih]

theorem mem_of_lookup (found : l.lookup key = some value) : (key, value) ∈ l := by
  obtain ⟨first, rest, rfl, _⟩ := List.lookup_eq_some_iff.mp found
  exact List.mem_append_right _ List.mem_cons_self

theorem lookup_absent (absent : key ∉ l.map Prod.fst) : l.lookup key = none := by
  rw [List.lookup_eq_none_iff]
  intro entry inside
  rw [bne_iff_ne]
  rintro rfl
  exact absent (List.mem_map_of_mem inside)

theorem lookup_middle (absent : key ∉ first.map Prod.fst) :
    (first ++ (key, value) :: rest).lookup key = some value := by
  rw [List.lookup_append, lookup_absent absent, List.lookup_cons_self]
  rfl

theorem put_middle (absent : key ∉ first.map Prod.fst) :
    put key other (first ++ (key, value) :: rest) = first ++ (key, other) :: rest := by
  induction first with
  | nil => simp [put]
  | cons entry first ih =>
    rw [List.map_cons, List.mem_cons, not_or] at absent
    rw [List.cons_append, put, if_neg (Ne.symm absent.1), ih absent.2, List.cons_append]

theorem remove_middle (before : key ∉ first.map Prod.fst) (after : key ∉ rest.map Prod.fst) :
    (first ++ (key, value) :: rest).filter (·.1 ≠ key) = first ++ rest := by
  have keep {l : List (K × V)} (absent : key ∉ l.map Prod.fst) : l.filter (·.1 ≠ key) = l := by
    rw [List.filter_eq_self]
    intro entry inside
    refine decide_eq_true fun same => absent ?_
    rw [← same]
    exact List.mem_map_of_mem inside
  rw [List.filter_append, keep before, List.filter_cons_of_neg (by simp), keep after]

theorem lookup_remove {gone : K} (different : key ≠ gone) :
    (l.filter (·.1 ≠ gone)).lookup key = l.lookup key := by
  induction l with
  | nil => rfl
  | cons entry l ih =>
    by_cases same : entry.1 = gone
    · have other : (key == entry.1) = false := beq_false_of_ne (same ▸ different)
      rw [List.filter_cons_of_neg (by simp [same]), ih, List.lookup_cons, other]
    · rw [List.filter_cons_of_pos (by simp [same]), List.lookup_cons, List.lookup_cons, ih]

end Keyed
