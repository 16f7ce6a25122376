import Mathlib.Logic.Relation

/-! Partial step functions driven by actions. A run takes only actions that its
guard allows in the state where they are taken; the guard is how a result says
which interleavings it speaks about. -/
namespace Transition
variable {S A : Type} {step : S → A → Option S} {guard : S → A → Prop} {s t u : S}

inductive Reaches (step : S → A → Option S) (guard : S → A → Prop) (s : S) : S → Prop where
  | refl : Reaches step guard s s
  | next {t u : S} (action : A) : Reaches step guard s t → guard t action →
      step t action = some u → Reaches step guard s u

namespace Reaches

theorem trans (first : Reaches step guard s t) (second : Reaches step guard t u) :
    Reaches step guard s u := by
  induction second with
  | refl => exact first
  | next action _ allowed stepped ih => exact .next action ih allowed stepped

theorem invariant {P : S → Prop} (run : Reaches step guard s t) (initial : P s)
    (preserves : ∀ {before after action}, P before → guard before action →
      step before action = some after → P after) : P t := by
  induction run with
  | refl => exact initial
  | next action _ allowed stepped ih => exact preserves ih allowed stepped

/-- Guards may be weakened at states that a kept property describes. -/
theorem weaken {weaker : S → A → Prop} {P : S → Prop} (run : Reaches step guard s t)
    (initial : P s)
    (preserves : ∀ {before after action}, P before → guard before action →
      step before action = some after → P after)
    (implies : ∀ {state action}, P state → guard state action → weaker state action) :
    Reaches step weaker s t ∧ P t := by
  induction run with
  | refl => exact ⟨.refl, initial⟩
  | next action _ allowed stepped ih =>
    exact ⟨.next action ih.1 (implies ih.2 allowed) stepped, preserves ih.2 allowed stepped⟩

/-- A second system keeps up with the first if it can answer every allowed step with a run. -/
theorem simulated {T B : Type} {step' : T → B → Option T} {guard' : T → B → Prop} {R : S → T → Prop}
    {s' : T} (run : Reaches step guard s t) (start : R s s')
    (answer : ∀ {before after action before'}, R before before' → guard before action →
      step before action = some after → ∃ after', Reaches step' guard' before' after' ∧
        R after after') : ∃ t', Reaches step' guard' s' t' ∧ R t t' := by
  induction run with
  | refl => exact ⟨s', .refl, start⟩
  | next action _ allowed stepped ih =>
    obtain ⟨before', reached, related⟩ := ih
    obtain ⟨after', further, related⟩ := answer related allowed stepped
    exact ⟨after', reached.trans further, related⟩

/-- A quantity that no allowed step lowers is at least as large at the end. -/
theorem monotone {P : S → Prop} (measure : S → Nat) (run : Reaches step guard s t)
    (initial : P s)
    (preserves : ∀ {before after action}, P before → guard before action →
      step before action = some after → P after ∧ measure before ≤ measure after) :
    measure s ≤ measure t := by
  have carried : P t ∧ measure s ≤ measure t := by
    induction run with
    | refl => exact ⟨initial, Nat.le_refl _⟩
    | next action _ allowed stepped ih =>
      obtain ⟨holds, grows⟩ := preserves ih.1 allowed stepped
      exact ⟨holds, Nat.le_trans ih.2 grows⟩
  exact carried.2

end Reaches

/-- The run that takes the listed actions one after the other. -/
inductive Follows (step : S → A → Option S) (guard : S → A → Prop) (s : S) : List A → S → Prop where
  | refl : Follows step guard s [] s
  | next {actions : List A} {t u : S} (action : A) : Follows step guard s actions t →
      guard t action → step t action = some u → Follows step guard s (actions ++ [action]) u

namespace Follows

theorem prepend {action : A} {actions : List A} (allowed : guard s action)
    (stepped : step s action = some t) (rest : Follows step guard t actions u) :
    Follows step guard s (action :: actions) u := by
  induction rest with
  | refl => exact .next action .refl allowed stepped
  | next last _ allowed stepped ih => exact .next last ih allowed stepped

theorem trans {actions more : List A} (first : Follows step guard s actions t)
    (second : Follows step guard t more u) : Follows step guard s (actions ++ more) u := by
  induction second with
  | refl => simpa using first
  | next action _ allowed stepped ih =>
    rw [← List.append_assoc]
    exact .next action ih allowed stepped

theorem reaches {actions : List A} (run : Follows step guard s actions t) :
    Reaches step guard s t := by
  induction run with
  | refl => exact .refl
  | next action _ allowed stepped ih => exact .next action ih allowed stepped

theorem invariant {P : List A → S → Prop} {actions : List A} (run : Follows step guard s actions t)
    (initial : P [] s)
    (preserves : ∀ {past before after action}, P past before → guard before action →
      step before action = some after → P (past ++ [action]) after) : P actions t := by
  induction run with
  | refl => exact initial
  | next action _ allowed stepped ih => exact preserves ih allowed stepped

end Follows

section Execute
variable [∀ s a, Decidable (guard s a)]

/-- Executing a list of actions; `none` when one of them is not allowed or not
enabled. -/
def execute (step : S → A → Option S) (guard : S → A → Prop) [∀ s a, Decidable (guard s a)] :
    S → List A → Option S
  | s, [] => some s
  | s, action :: rest =>
    if guard s action then (step s action).bind fun t => execute step guard t rest else none

theorem execute_reaches {actions : List A} (executed : execute step guard s actions = some t) :
    Reaches step guard s t := by
  induction actions generalizing s with
  | nil =>
    cases Option.some.inj executed
    exact .refl
  | cons action rest ih =>
    simp only [execute, Option.ite_none_right_eq_some, Option.bind_eq_some_iff] at executed
    obtain ⟨allowed, middle, stepped, executed⟩ := executed
    have first : Reaches step guard s middle := .next action .refl allowed stepped
    exact first.trans (ih executed)

theorem execute_follows {actions : List A} (executed : execute step guard s actions = some t) :
    Follows step guard s actions t := by
  induction actions generalizing s with
  | nil =>
    cases Option.some.inj executed
    exact .refl
  | cons action rest ih =>
    simp only [execute, Option.ite_none_right_eq_some, Option.bind_eq_some_iff] at executed
    obtain ⟨allowed, middle, stepped, executed⟩ := executed
    exact (ih executed).prepend allowed stepped

theorem execute_shows {actions : List A} {p : S → Bool}
    (checked : (execute step guard s actions).any p = true) :
    ∃ t, Reaches step guard s t ∧ p t = true := by
  rcases executed : execute step guard s actions with _ | t <;> rw [executed] at checked
  · cases checked
  · exact ⟨t, execute_reaches executed, checked⟩

theorem execute_shows_run {actions : List A} {p : S → Bool}
    (checked : (execute step guard s actions).any p = true) :
    ∃ t, Follows step guard s actions t ∧ p t = true := by
  rcases executed : execute step guard s actions with _ | t <;> rw [executed] at checked
  · cases checked
  · exact ⟨t, execute_follows executed, checked⟩

theorem execute_shows_from {start : Option S} {actions : List A} {p : S → Bool}
    (checked : (start.bind fun s => execute step guard s actions).any p = true) :
    ∃ s t, start = some s ∧ Reaches step guard s t ∧ p t = true := by
  rcases start with _ | s
  · cases checked
  · obtain ⟨t, reached, holds⟩ := execute_shows checked
    exact ⟨s, t, rfl, reached, holds⟩

end Execute
end Transition
