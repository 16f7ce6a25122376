import Mathlib.Tactic.TypeStar

/-! Methods that update a state in place and may stop early. What a method has
changed before it stops stays changed, as with an early return from a method
that borrows its receiver mutably. -/

namespace Except
variable {ε ε' α β : Type}

theorem of_bind_ok {x : Except ε α} {f : α → Except ε β} {b : β} (bound : (x >>= f) = .ok b) :
    ∃ a, x = .ok a ∧ f a = .ok b := by
  cases x with
  | error e => contradiction
  | ok a => exact ⟨a, rfl, bound⟩

theorem of_mapError_ok {x : Except ε α} {f : ε → ε'} {a : α} (mapped : x.mapError f = .ok a) :
    x = .ok a := by
  cases x with
  | error e => contradiction
  | ok b => exact congrArg _ (ok.inj mapped)

theorem of_toOption_some {x : Except ε α} {a : α} (found : x.toOption = some a) : x = .ok a := by
  cases x with
  | error e => contradiction
  | ok b => exact congrArg _ (Option.some.inj found)

end Except

def Fallible (ε σ α : Type) : Type := σ → Except ε α × σ

namespace Fallible
variable {ε σ τ α β : Type}

instance : Monad (Fallible ε σ) where
  pure a := fun s => (.ok a, s)
  bind m f := fun s =>
    match m s with
    | (.ok a, t) => f a t
    | (.error e, t) => (.error e, t)

def get : Fallible ε σ σ := fun s => (.ok s, s)

def modify (f : σ → σ) : Fallible ε σ Unit := fun s => (.ok (), f s)

def stop (e : ε) : Fallible ε σ α := fun s => (.error e, s)

def when (p : Prop) [Decidable p] (m : Fallible ε σ Unit) : Fallible ε σ Unit :=
  if p then m else pure ()

/-- A result computed without touching the state. -/
def lift (r : Except ε α) : Fallible ε σ α := fun s => (r, s)

/-- Run a method of a part of the state. -/
def part (view : σ → τ) (put : τ → σ → σ) (m : Fallible ε τ α) : Fallible ε σ α := fun s =>
  let (r, t) := m (view s)
  (r, put t s)

@[simp] theorem pure_run (a : α) (s : σ) : (pure a : Fallible ε σ α) s = (.ok a, s) := rfl

@[simp] theorem bind_run (m : Fallible ε σ α) (f : α → Fallible ε σ β) (s : σ) :
    (m >>= f) s = match m s with
      | (.ok a, t) => f a t
      | (.error e, t) => (.error e, t) := rfl

@[simp] theorem get_run (s : σ) : (get : Fallible ε σ σ) s = (.ok s, s) := rfl

@[simp] theorem modify_run (f : σ → σ) (s : σ) :
    (modify f : Fallible ε σ Unit) s = (.ok (), f s) := rfl

@[simp] theorem stop_run (e : ε) (s : σ) : (stop e : Fallible ε σ α) s = (.error e, s) := rfl

@[simp] theorem lift_run (r : Except ε α) (s : σ) : (lift r : Fallible ε σ α) s = (r, s) := rfl

@[simp] theorem part_run (view : σ → τ) (put : τ → σ → σ) (m : Fallible ε τ α) (s : σ) :
    part view put m s = ((m (view s)).1, put (m (view s)).2 s) := rfl

theorem when_run (p : Prop) [Decidable p] (m : Fallible ε σ Unit) (s : σ) :
    when p m s = if p then m s else (.ok (), s) := by
  by_cases holds : p <;> simp [when, holds]

theorem modify_bind (f : σ → σ) (g : Unit → Fallible ε σ β) (s : σ) :
    (modify f >>= g) s = g () (f s) := rfl

theorem bind_ok {m : Fallible ε σ α} {f : α → Fallible ε σ β} {s t : σ} {a : α}
    (first : m s = (.ok a, t)) : (m >>= f) s = f a t := by
  rw [bind_run, first]

theorem bind_error {m : Fallible ε σ α} {f : α → Fallible ε σ β} {s t : σ} {e : ε}
    (first : m s = (.error e, t)) : (m >>= f) s = (.error e, t) := by
  rw [bind_run, first]

theorem bind_congr {m n : Fallible ε σ α} {f g : α → Fallible ε σ β} {s : σ} (first : m s = n s)
    (second : ∀ a t, n s = (.ok a, t) → f a t = g a t) : (m >>= f) s = (n >>= g) s := by
  rw [bind_run, bind_run, first]
  rcases ran : n s with ⟨_ | a, t⟩
  · rfl
  · exact second a t ran

theorem of_bind_ok {m : Fallible ε σ α} {f : α → Fallible ε σ β} {s u : σ} {b : β}
    (ran : (m >>= f) s = (.ok b, u)) : ∃ a t, m s = (.ok a, t) ∧ f a t = (.ok b, u) := by
  rw [bind_run] at ran
  rcases first : m s with ⟨stop | a, t⟩ <;> rw [first] at ran
  · cases ran
  · exact ⟨a, t, rfl, ran⟩

theorem bind_assoc {γ : Type} (m : Fallible ε σ α) (f : α → Fallible ε σ β)
    (g : β → Fallible ε σ γ) : (m >>= f >>= g) = (m >>= fun a => f a >>= g) := by
  funext s
  simp only [bind_run]
  rcases m s with ⟨_ | a, t⟩ <;> rfl

/-- Where a method leads: to one kind of state if it stops, to another with its value. -/
def Leads (m : Fallible ε σ α) (s : σ) (stopped : σ → Prop) (returned : α → σ → Prop) : Prop :=
  match m s with
  | (.ok a, t) => returned a t
  | (.error _, t) => stopped t

namespace Leads
variable {m : Fallible ε σ α} {s : σ} {stopped : σ → Prop} {returned : α → σ → Prop}

theorem bind {f : α → Fallible ε σ β} {final : β → σ → Prop} (first : Leads m s stopped returned)
    (second : ∀ a t, returned a t → Leads (f a) t stopped final) : Leads (m >>= f) s stopped final := by
  rw [Leads, bind_run]
  rw [Leads] at first
  rcases ran : m s with ⟨_ | a, t⟩ <;> rw [ran] at first
  · exact first
  · exact second a t first

theorem ok_bind {f : α → Fallible ε σ β} {final : β → σ → Prop} {a : α}
    (leads : Leads (f a) s stopped final) : Leads (lift (.ok a) >>= f) s stopped final := leads

theorem returns (leads : Leads m s stopped returned) {a : α} {t : σ} (ran : m s = (.ok a, t)) :
    returned a t := by
  rw [Leads, ran] at leads
  exact leads

theorem stops (leads : Leads m s stopped returned) {e : ε} {t : σ} (ran : m s = (.error e, t)) :
    stopped t := by
  rw [Leads, ran] at leads
  exact leads

theorem weaken {stopped' : σ → Prop} {returned' : α → σ → Prop} (leads : Leads m s stopped returned)
    (weaker : ∀ t, stopped t → stopped' t) (looser : ∀ a t, returned a t → returned' a t) :
    Leads m s stopped' returned' := by
  rw [Leads] at leads ⊢
  rcases ran : m s with ⟨_ | a, t⟩ <;> rw [ran] at leads
  · exact weaker t leads
  · exact looser a t leads

theorem mono {stopped' : σ → Prop} (leads : Leads m s stopped returned)
    (weaker : ∀ t, stopped t → stopped' t) : Leads m s stopped' returned :=
  leads.weaken weaker fun _ _ => id

theorem get_bind {f : σ → Fallible ε σ β} {final : β → σ → Prop}
    (leads : Leads (f s) s stopped final) : Leads (get >>= f) s stopped final := leads

theorem modify_bind {g : σ → σ} {f : Unit → Fallible ε σ β} {final : β → σ → Prop}
    (leads : Leads (f ()) (g s) stopped final) : Leads (modify g >>= f) s stopped final := leads

/-- A method of a part leads to states that differ in that part. -/
theorem part {view : σ → τ} {put : τ → σ → σ} {m : Fallible ε τ α} {stopped : τ → Prop}
    {returned : α → τ → Prop} (leads : Leads m (view s) stopped returned) :
    Leads (Fallible.part view put m) s (fun t => ∃ u, stopped u ∧ t = put u s)
      fun a t => ∃ u, returned a u ∧ t = put u s := by
  rw [Leads] at leads ⊢
  rw [part_run]
  rcases ran : m (view s) with ⟨_ | a, u⟩ <;> rw [ran] at leads
  · exact ⟨u, leads, rfl⟩
  · exact ⟨u, leads, rfl⟩

/-- The state that is led to is the one the method ends in. -/
theorem ends (leads : Leads m s stopped returned) :
    Leads m s (fun t => stopped t ∧ t = (m s).2) fun a t => returned a t ∧ t = (m s).2 := by
  rw [Leads] at leads ⊢
  rcases ran : m s with ⟨_ | a, t⟩ <;> rw [ran] at leads
  · exact ⟨leads, rfl⟩
  · exact ⟨leads, rfl⟩

theorem either (leads : Leads m s stopped returned) (weaker : ∀ a t, returned a t → stopped t) :
    stopped (m s).2 := by
  rw [Leads] at leads
  rcases ran : m s with ⟨_ | a, t⟩ <;> rw [ran] at leads
  · exact leads
  · exact weaker a t leads

end Leads

/-- Two methods in a row keep a relation if each keeps it where it is called. -/
theorem bind_keeps {R : σ → σ → Prop} {m : Fallible ε σ α} {f : α → Fallible ε σ β} {s : σ}
    (trans : ∀ {s t u}, R s t → R t u → R s u) (first : R s (m s).2)
    (second : ∀ a t, m s = (.ok a, t) → R t (f a t).2) : R s ((m >>= f) s).2 := by
  rw [bind_run]
  rcases ran : m s with ⟨_ | a, t⟩ <;> rw [ran] at first
  · exact first
  · exact trans first (second a t ran)

/-- However the method ends, its final state is related to the state it started in. -/
def Keeps (R : σ → σ → Prop) (m : Fallible ε σ α) : Prop := ∀ s, R s (m s).2

namespace Keeps
variable {R : σ → σ → Prop}

theorem pure (refl : ∀ s, R s s) (a : α) : Keeps R (Pure.pure a : Fallible ε σ α) := fun s => refl s

theorem get (refl : ∀ s, R s s) : Keeps R (Fallible.get : Fallible ε σ σ) := fun s => refl s

theorem lift (refl : ∀ s, R s s) (r : Except ε α) : Keeps R (Fallible.lift r) := fun s => refl s

theorem bind {m : Fallible ε σ α} {f : α → Fallible ε σ β}
    (trans : ∀ {s t u}, R s t → R t u → R s u) (first : Keeps R m) (second : ∀ a, Keeps R (f a)) :
    Keeps R (m >>= f) :=
  fun s => bind_keeps trans (first s) fun a t _ => second a t

theorem run {m : Fallible ε σ α} (keeps : Keeps R m) {s t : σ} {r : Except ε α}
    (ran : m s = (r, t)) : R s t := by
  have kept := keeps s
  rwa [ran] at kept

theorem leads {m : Fallible ε σ α} (keeps : Keeps R m) (s : σ) : Leads m s (R s) fun _ => R s := by
  have kept := keeps s
  rw [Leads]
  rcases ran : m s with ⟨_ | a, t⟩ <;> rw [ran] at kept <;> exact kept

end Keeps

/-- Started with `P`, the method ends with `P`, and does not stop with `e`. -/
def Spares (e : ε) (P : σ → Prop) (m : Fallible ε σ α) : Prop :=
  ∀ s, P s → (m s).1 ≠ .error e ∧ P (m s).2

namespace Spares
variable {e : ε} {P : σ → Prop}

theorem pure (a : α) : Spares e P (Pure.pure a : Fallible ε σ α) := fun _ holds => ⟨by simp, holds⟩

theorem get : Spares e P (Fallible.get : Fallible ε σ σ) := fun _ holds => ⟨by simp, holds⟩

theorem modify {f : σ → σ} (keeps : ∀ s, P s → P (f s)) :
    Spares e P (Fallible.modify f : Fallible ε σ Unit) :=
  fun s holds => ⟨by simp, keeps s holds⟩

theorem stop {e' : ε} (other : e' ≠ e) : Spares e P (Fallible.stop e' : Fallible ε σ α) := by
  intro s holds
  exact ⟨fun same => other (Except.error.inj same), holds⟩

theorem lift {r : Except ε α} (other : r ≠ .error e) : Spares e P (Fallible.lift r : Fallible ε σ α) :=
  fun _ holds => ⟨other, holds⟩

theorem bind {m : Fallible ε σ α} {f : α → Fallible ε σ β} (first : Spares e P m)
    (second : ∀ a, Spares e P (f a)) : Spares e P (m >>= f) := by
  intro s holds
  obtain ⟨other, kept⟩ := first s holds
  rw [bind_run]
  rcases ran : m s with ⟨_ | a, t⟩ <;> rw [ran] at other kept
  · exact ⟨fun same => other (congrArg Except.error (Except.error.inj same)), kept⟩
  · exact second a t kept

theorem ite {p : Prop} [Decidable p] {m n : Fallible ε σ α} (yes : Spares e P m) (no : Spares e P n) :
    Spares e P (if p then m else n) := by
  split
  · exact yes
  · exact no

theorem when {p : Prop} [Decidable p] {m : Fallible ε σ Unit} (spares : Spares e P m) :
    Spares e P (Fallible.when p m) :=
  ite spares (pure ())

theorem part {view : σ → τ} {put : τ → σ → σ} {m : Fallible ε τ α} {Q : τ → Prop}
    (spares : Spares e Q m) (seen : ∀ s, P s → Q (view s)) (kept : ∀ s t, P s → Q t → P (put t s)) :
    Spares e P (Fallible.part view put m) := by
  intro s holds
  obtain ⟨other, ended⟩ := spares (view s) (seen s holds)
  exact ⟨other, kept s _ holds ended⟩

end Spares

/-- Whatever it is started on, the method does not stop with `e`. -/
def Never (e : ε) (m : Fallible ε σ α) : Prop := Spares e (fun _ => True) m

/-- Started on related states, the two methods end alike and in related states. -/
def Respects (R : σ → τ → Prop) (m : Fallible ε σ α) (n : Fallible ε τ α) : Prop :=
  ∀ s t, R s t → (m s).1 = (n t).1 ∧ R (m s).2 (n t).2

namespace Respects
variable {R : σ → τ → Prop}

theorem pure (a : α) : Respects R (Pure.pure a : Fallible ε σ α) (Pure.pure a) :=
  fun _ _ related => ⟨rfl, related⟩

theorem stop (e : ε) : Respects R (Fallible.stop e : Fallible ε σ α) (Fallible.stop e) :=
  fun _ _ related => ⟨rfl, related⟩

theorem lift (r : Except ε α) : Respects R (Fallible.lift r : Fallible ε σ α) (Fallible.lift r) :=
  fun _ _ related => ⟨rfl, related⟩

theorem modify {f : σ → σ} {g : τ → τ} (keeps : ∀ s t, R s t → R (f s) (g t)) :
    Respects R (Fallible.modify f : Fallible ε σ Unit) (Fallible.modify g) :=
  fun s t related => ⟨rfl, keeps s t related⟩

/-- Both return, or both stop for one reason. -/
theorem cases {m : Fallible ε σ α} {n : Fallible ε τ α} (respects : Respects R m n) {s : σ} {t : τ}
    (related : R s t) :
    (∃ a s' t', m s = (.ok a, s') ∧ n t = (.ok a, t') ∧ R s' t') ∨
      ∃ e s' t', m s = (.error e, s') ∧ n t = (.error e, t') ∧ R s' t' := by
  obtain ⟨same, kept⟩ := respects s t related
  rcases left : m s with ⟨e | a, s'⟩ <;> rcases right : n t with ⟨_ | _, t'⟩ <;>
    rw [left, right] at same kept <;> cases same
  · exact .inr ⟨e, s', t', rfl, rfl, kept⟩
  · exact .inl ⟨a, s', t', rfl, rfl, kept⟩

theorem bind {m : Fallible ε σ α} {n : Fallible ε τ α} {f : α → Fallible ε σ β} {g : α → Fallible ε τ β}
    (first : Respects R m n) (second : ∀ a, Respects R (f a) (g a)) :
    Respects R (m >>= f) (n >>= g) := by
  intro s t related
  rw [bind_run, bind_run]
  rcases first.cases related with ⟨a, s', t', left, right, kept⟩ | ⟨e, s', t', left, right, kept⟩
  · rw [left, right]
    exact second a s' t' kept
  · rw [left, right]
    exact ⟨rfl, kept⟩

/-- What is read from related states may differ; the rest has to make up for it. -/
theorem get_bind {f : σ → Fallible ε σ β} {g : τ → Fallible ε τ β}
    (rest : ∀ s t, R s t → Respects R (f s) (g t)) :
    Respects R (Fallible.get >>= f) (Fallible.get >>= g) :=
  fun s t related => rest s t related s t related

theorem ite {p q : Prop} [Decidable p] [Decidable q] {m m' : Fallible ε σ α} {n n' : Fallible ε τ α}
    (same : p ↔ q) (yes : Respects R m n) (no : Respects R m' n') :
    Respects R (if p then m else m') (if q then n else n') := by
  by_cases holds : p
  · rw [if_pos holds, if_pos (same.mp holds)]
    exact yes
  · rw [if_neg holds, if_neg fun other => holds (same.mpr other)]
    exact no

theorem when {p q : Prop} [Decidable p] [Decidable q] {m : Fallible ε σ Unit} {n : Fallible ε τ Unit}
    (same : p ↔ q) (respects : Respects R m n) :
    Respects R (Fallible.when p m) (Fallible.when q n) :=
  ite same respects (pure ())

theorem part {υ : Type} {view : σ → υ} {put : υ → σ → σ} {view' : τ → υ} {put' : υ → τ → τ}
    (m : Fallible ε υ α) (seen : ∀ s t, R s t → view s = view' t)
    (kept : ∀ u s t, R s t → R (put u s) (put' u t)) :
    Respects R (Fallible.part view put m) (Fallible.part view' put' m) := by
  intro s t related
  rw [part_run, part_run, seen s t related]
  exact ⟨rfl, kept _ s t related⟩

end Respects

end Fallible
