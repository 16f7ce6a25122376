import Mathlib.Data.Nat.Find
import WalKv.Consensus.Prefix

/-! Splicing entries into a log one by one: an entry whose term is already there
is skipped, a different one cuts the log off and is appended. Between logs that
match wherever their terms do, this is the merge with what the leader showed. -/
namespace Consensus

variable {E : Type} [Stamped E] {l h : List E} {keep p m : Nat}
open Stamped

/-- Splice entries that follow position `p` of the leader's log. Positions below
`keep` are covered already and not looked at. -/
def splice (keep : Nat) (l : List E) : Nat → List E → List E
  | _, [] => l
  | p, e :: rest =>
    if p < keep then splice keep l (p + 1) rest
    else
      match l[p]? with
      | some own =>
        if term own = term e then splice keep l (p + 1) rest
        else splice keep (l.take p ++ [e]) (p + 1) rest
      | none => splice keep (l ++ [e]) (p + 1) rest

theorem splice_skip {e : E} {rest : List E}
    (skip : p < keep ∨ ∃ own, l[p]? = some own ∧ term own = term e) :
    splice keep l p (e :: rest) = splice keep l (p + 1) rest := by
  rw [splice]
  split_ifs with covered
  · rfl
  · obtain ⟨own, found, same⟩ := skip.resolve_left covered
    simp only [found, same, if_true]

theorem splice_cut {e own : E} {rest : List E} (above : keep ≤ p) (found : l[p]? = some own)
    (differ : term own ≠ term e) :
    splice keep l p (e :: rest) = splice keep (l.take p ++ [e]) (p + 1) rest := by
  rw [splice, if_neg (Nat.not_lt.mpr above)]
  simp only [found, if_neg differ]

theorem splice_append {e : E} {rest : List E} (above : keep ≤ p) (ended : l.length ≤ p) :
    splice keep l p (e :: rest) = splice keep (l ++ [e]) (p + 1) rest := by
  rw [splice, if_neg (Nat.not_lt.mpr above)]
  simp only [List.getElem?_eq_none ended]

/-- The log needs the entry at place `j`: it ends there or has another term. -/
def Differs (keep : Nat) (l : List E) (p : Nat) (es : List E) (j : Nat) : Prop :=
  keep ≤ p + j ∧ ∃ e, es[j]? = some e ∧ ∀ own, l[p + j]? = some own → term own ≠ term e

theorem differs_succ {e : E} {es : List E} {j : Nat} :
    Differs keep l p (e :: es) (j + 1) ↔ Differs keep l (p + 1) es j := by
  rw [Differs, Differs, List.getElem?_cons_succ, show p + (j + 1) = p + 1 + j by omega]

theorem skip_of_not_differs {e : E} {es : List E} (same : ¬ Differs keep l p (e :: es) 0) :
    p < keep ∨ ∃ own, l[p]? = some own ∧ term own = term e := by
  by_contra needed
  push Not at needed
  exact same ⟨needed.1, e, rfl, needed.2⟩

theorem Differs.within {es : List E} {j : Nat} (differs : Differs keep l p es j)
    (first : ∀ i < j, ¬ Differs keep l p es i) (reach : p ≤ l.length) (kept : keep ≤ l.length) :
    p + j ≤ l.length := by
  by_contra beyond
  obtain ⟨_, e, found, _⟩ := differs
  have sent := (List.getElem?_eq_some_iff.mp found).1
  have ended : l[p + (l.length - p)]? = none := List.getElem?_eq_none (by omega)
  refine first (l.length - p) (by omega) ⟨by omega, _, List.getElem?_eq_getElem (by omega), ?_⟩
  intro own here
  rw [ended] at here
  cases here

theorem splice_end {es : List E} (kept : keep ≤ l.length) : splice keep l l.length es = l ++ es := by
  induction es generalizing l with
  | nil => simp [splice]
  | cons e es ih =>
    have longer : (l ++ [e]).length = l.length + 1 := by simp
    rw [splice_append kept (Nat.le_refl _), ← longer, ih (by omega), List.append_assoc]
    rfl

theorem splice_same {es : List E} (same : ∀ j, ¬ Differs keep l p es j) :
    splice keep l p es = l := by
  induction es generalizing p with
  | nil => rfl
  | cons e es ih =>
    rw [splice_skip (skip_of_not_differs (same 0))]
    exact ih fun j differs => same (j + 1) (differs_succ.mpr differs)

/-- From the first difference on the log is what the entries say. -/
theorem splice_first {es : List E} {j : Nat} (differs : Differs keep l p es j)
    (first : ∀ i < j, ¬ Differs keep l p es i) (reach : p ≤ l.length) (kept : keep ≤ l.length) :
    splice keep l p es = l.take (p + j) ++ es.drop j := by
  induction es generalizing p j with
  | nil =>
    obtain ⟨_, e, found, _⟩ := differs
    cases found
  | cons e es ih =>
    cases j with
    | zero =>
      obtain ⟨above, _, ⟨⟩, other⟩ := differs
      rw [Nat.add_zero] at above other
      have appended {front : List E} (length : front.length = p) :
          splice keep (front ++ [e]) (p + 1) es = front ++ e :: es := by
        have longer : (front ++ [e]).length = p + 1 := by simp [length]
        rw [← longer, splice_end (by omega), List.append_assoc]
        rfl
      rcases Nat.lt_or_ge p l.length with inside | ended
      · have found : l[p]? = some l[p] := List.getElem?_eq_getElem inside
        rw [splice_cut above found (other _ found), appended (by simp; omega)]
        rfl
      · rw [splice_append above ended, appended (by omega), Nat.add_zero,
          List.take_of_length_le ended]
        rfl
    | succ j =>
      have skip := skip_of_not_differs (first 0 (Nat.succ_pos j))
      have inside : p < l.length := by
        rcases skip with covered | ⟨own, found, _⟩
        · omega
        · exact (List.getElem?_eq_some_iff.mp found).1
      rw [splice_skip skip, ih (differs_succ.mp differs)
        (fun i earlier => fun before => first (i + 1) (by omega) (differs_succ.mpr before)) inside,
        List.drop_succ_cons, show p + 1 + j = p + (j + 1) by omega]

theorem splice_length {es : List E} (some_place : ∃ j, Differs keep l p es j) (reach : p ≤ l.length)
    (kept : keep ≤ l.length) : (splice keep l p es).length = p + es.length := by
  classical
  have differs := Nat.find_spec some_place
  have first := fun i earlier => Nat.find_min (m := i) some_place earlier
  have within := differs.within first reach kept
  obtain ⟨_, e, found, _⟩ := differs
  have sent := (List.getElem?_eq_some_iff.mp found).1
  rw [splice_first (Nat.find_spec some_place) first reach kept, List.length_append, List.length_take,
    List.length_drop]
  omega

/-- How often the splice cuts the log off. -/
def cuts (keep : Nat) (l : List E) : Nat → List E → Nat
  | _, [] => 0
  | p, e :: rest =>
    if p < keep then cuts keep l (p + 1) rest
    else
      match l[p]? with
      | some own =>
        if term own = term e then cuts keep l (p + 1) rest
        else cuts keep (l.take p ++ [e]) (p + 1) rest + 1
      | none => cuts keep (l ++ [e]) (p + 1) rest

theorem cuts_skip {e : E} {rest : List E}
    (skip : p < keep ∨ ∃ own, l[p]? = some own ∧ term own = term e) :
    cuts keep l p (e :: rest) = cuts keep l (p + 1) rest := by
  rw [cuts]
  split_ifs with covered
  · rfl
  · obtain ⟨own, found, same⟩ := skip.resolve_left covered
    simp only [found, same, if_true]

theorem cuts_cut {e own : E} {rest : List E} (above : keep ≤ p) (found : l[p]? = some own)
    (differ : term own ≠ term e) :
    cuts keep l p (e :: rest) = cuts keep (l.take p ++ [e]) (p + 1) rest + 1 := by
  rw [cuts, if_neg (Nat.not_lt.mpr above)]
  simp only [found, if_neg differ]

theorem cuts_append {e : E} {rest : List E} (above : keep ≤ p) (ended : l.length ≤ p) :
    cuts keep l p (e :: rest) = cuts keep (l ++ [e]) (p + 1) rest := by
  rw [cuts, if_neg (Nat.not_lt.mpr above)]
  simp only [List.getElem?_eq_none ended]

theorem cuts_agreeing {es : List E} (reach : p ≤ l.length) (kept : keep ≤ l.length)
    (agree : ∀ j own e, l[p + j]? = some own → es[j]? = some e → term own = term e) :
    cuts keep l p es = 0 := by
  induction es generalizing l p with
  | nil => rfl
  | cons e es ih =>
    have later : ∀ j own x, l[p + 1 + j]? = some own → es[j]? = some x → term own = term x := by
      intro j own x here found
      refine agree (j + 1) own x ?_ (by simpa using found)
      rwa [show p + (j + 1) = p + 1 + j by omega]
    by_cases covered : p < keep
    · rw [cuts_skip (.inl covered), ih (by omega) kept later]
    · rcases Nat.lt_or_ge p l.length with inside | ended
      · have found : l[p]? = some l[p] := List.getElem?_eq_getElem inside
        rw [cuts_skip (.inr ⟨_, found, agree 0 _ e found rfl⟩), ih inside kept later]
      · rw [cuts_append (by omega) ended]
        refine ih (by simp; omega) (by simp; omega) fun j own x here found => ?_
        rw [List.getElem?_eq_none (by simp; omega)] at here
        cases here

/-- The log is cut off at most once: behind the cut there is nothing left to differ. -/
theorem cuts_le_one (es : List E) (reach : p ≤ l.length) (kept : keep ≤ l.length) :
    cuts keep l p es ≤ 1 := by
  induction es generalizing l p with
  | nil => exact Nat.zero_le _
  | cons e es ih =>
    by_cases covered : p < keep
    · rw [cuts_skip (.inl covered)]
      exact ih (by omega) kept
    · rcases Nat.lt_or_ge p l.length with inside | ended
      · have found : l[p]? = some l[p] := List.getElem?_eq_getElem inside
        by_cases same : term l[p] = term e
        · rw [cuts_skip (.inr ⟨_, found, same⟩)]
          exact ih inside kept
        · have rest : cuts keep (l.take p ++ [e]) (p + 1) es = 0 := by
            refine cuts_agreeing (by simp; omega) (by simp; omega) fun j own x here _ => ?_
            rw [List.getElem?_eq_none (by simp; omega)] at here
            cases here
          have once : cuts keep l p (e :: es) = 0 + 1 := rest ▸ cuts_cut (by omega) found same
          exact Nat.le_of_eq once
      · rw [cuts_append (by omega) ended]
        exact ih (by simp; omega) (by simp; omega)

/-- Entries that differ in no term up to a position leave the log up to there. -/
theorem splice_keeps {es : List E} {c : Nat} (within : c ≤ l.length)
    (agree : ∀ j e own, es[j]? = some e → keep ≤ p + j → p + j < c → l[p + j]? = some own →
      term own = term e) : (splice keep l p es).take c = l.take c := by
  induction es generalizing l p with
  | nil => rfl
  | cons e es ih =>
    have later : ∀ j x own, es[j]? = some x → keep ≤ p + 1 + j → p + 1 + j < c →
        l[p + 1 + j]? = some own → term own = term x := by
      intro j x own found above below here
      refine agree (j + 1) x own (by simpa using found) (by omega) (by omega) ?_
      rwa [show p + (j + 1) = p + 1 + j by omega]
    by_cases covered : p < keep
    · rw [splice_skip (.inl covered), ih within later]
    · rcases Nat.lt_or_ge p l.length with inside | ended
      · have found : l[p]? = some l[p] := List.getElem?_eq_getElem inside
        by_cases same : term l[p] = term e
        · rw [splice_skip (.inr ⟨_, found, same⟩), ih within later]
        · have reached : c ≤ p := by
            by_contra below
            exact same (agree 0 e _ rfl (by omega) (by omega) found)
          rw [splice_cut (by omega) found same, ih (by simp; omega) (fun j _ _ _ _ below => by omega),
            List.take_append_of_le_length (by simp; omega), List.take_take, Nat.min_eq_left reached]
      · rw [splice_append (by omega) ended, ih (by simp; omega) (fun j _ _ _ _ below => by omega),
          List.take_append_of_le_length within]

/-- What a splice leaves that may stop early: some of the entries spliced in, or the log cut
off at one that differs. -/
inductive Partway (keep : Nat) (l : List E) (p : Nat) (es : List E) : List E → Prop
  | spliced (j : Nat) : Partway keep l p es (splice keep l p (es.take j))
  | cut {j : Nat} (differs : Differs keep l p es j) : Partway keep l p es (l.take (p + j))

namespace Partway
variable {e : E} {es l' : List E}

theorem skip (skip : p < keep ∨ ∃ own, l[p]? = some own ∧ term own = term e)
    (part : Partway keep l (p + 1) es l') : Partway keep l p (e :: es) l' := by
  cases part with
  | spliced j =>
    rw [← splice_skip skip, ← List.take_succ_cons]
    exact .spliced (j + 1)
  | @cut j differs =>
    rw [show p + 1 + j = p + (j + 1) by omega]
    exact .cut (differs_succ.mpr differs)

theorem at_end (ended : l.length ≤ p) (part : Partway keep l p es l') :
    ∃ j, l' = splice keep l p (es.take j) := by
  cases part with
  | spliced j => exact ⟨j, rfl⟩
  | cut differs => exact ⟨0, List.take_of_length_le (by omega)⟩

theorem keeps {c : Nat} (part : Partway keep l p es l') (within : c ≤ l.length)
    (agree : ∀ j, p + j < c → ¬ Differs keep l p es j) : l'.take c = l.take c := by
  cases part with
  | spliced j =>
    refine splice_keeps within fun i e own found above below here => ?_
    by_contra other
    have sent := prefix_getElem? (List.take_prefix j es) found
    refine agree i below ⟨above, e, sent, fun own' here' => ?_⟩
    rw [here] at here'
    exact Option.some.inj here' ▸ other
  | @cut j differs =>
    have low : c ≤ p + j := by
      by_contra below
      exact agree j (by omega) differs
    rw [List.take_take, Nat.min_eq_left low]

end Partway

/-- Equal terms at a position mean equal logs up to there. -/
def Matching (l h : List E) : Prop :=
  ∀ i a b, l[i]? = some a → h[i]? = some b → term a = term b → l.take (i + 1) = h.take (i + 1)

theorem matching_take (h : List E) (k : Nat) : Matching (h.take k) h := by
  intro i a b own _ _
  have bound := (List.getElem?_eq_some_iff.mp own).1
  simp only [List.length_take] at bound
  rw [List.take_take, Nat.min_eq_left (by omega)]

theorem Matching.shorter {l' : List E} (matching : Matching l h) (shorter : l' <+: l) :
    Matching l' h := by
  intro i a b own other same
  have bound := (List.getElem?_eq_some_iff.mp own).1
  rw [← prefix_take shorter bound]
  exact matching i a b (prefix_getElem? shorter own) other same

theorem Matching.merge (matching : Matching l h) (m : Nat) :
    Matching (Consensus.merge l (h.take m)) h := by
  rcases merge_cases l (h.take m) with ⟨kept, _⟩ | ⟨cut, _⟩
  · rw [kept]
    exact matching
  · rw [cut]
    exact matching_take h m

theorem Matching.take_eq (matching : Matching l h) (own : p ≤ l.length) (other : p ≤ h.length)
    (stamps : termAt l p = termAt h p) : l.take p = h.take p := by
  cases p with
  | zero => rfl
  | succ i =>
    have found : l[i]? = some l[i] := List.getElem?_eq_getElem own
    have shown : h[i]? = some h[i] := List.getElem?_eq_getElem other
    rw [termAt_succ, termAt_succ, found, shown] at stamps
    exact matching i _ _ found shown stamps

theorem not_prefix_of_differ {a b : E} (own : l[p]? = some a) (shown : h[p]? = some b)
    (differ : term a ≠ term b) (inside : p < m) : ¬ h.take m <+: l := by
  rintro ⟨rest, same⟩
  have bound := (List.getElem?_eq_some_iff.mp shown).1
  rw [← same, List.getElem?_append_left (by simp only [List.length_take]; omega),
    List.getElem?_take, if_pos inside, shown] at own
  exact differ (congrArg term (Option.some.inj own).symm)

/-- The induction is on the entries left; the logs agree up to `p`, and once the
own log has been cut it is a prefix of the leader's. -/
theorem splice_merge (matching : Matching l h) (agree : l.take p = h.take p)
    (covered : l.take keep <+: h) (reach : p ≤ l.length)
    (order : p ≤ m) (within : m ≤ h.length) (kept : keep ≤ l.length) :
    splice keep l p ((h.take m).drop p) = merge l (h.take m) := by
  induction left : m - p generalizing l p with
  | zero =>
    have done : p = m := by omega
    subst done
    rw [List.drop_eq_nil_of_le (List.length_take_le p h), merge_kept (agree ▸ List.take_prefix p l)]
    rfl
  | succ left ih =>
    have shown : h[p]? = some h[p] := List.getElem?_eq_getElem (by omega)
    have next : (h.take m).drop p = h[p] :: (h.take m).drop (p + 1) := by
      rw [List.drop_eq_getElem_cons (by simp only [List.length_take]; omega), List.getElem_take]
    have grown : h.take (p + 1) = h.take p ++ [h[p]] := (List.take_append_getElem (by omega)).symm
    have cut (below : keep ≤ p) : splice keep (h.take p ++ [h[p]]) (p + 1)
        ((h.take m).drop (p + 1)) = h.take m := by
      have length : (h.take (p + 1)).length = p + 1 := by simp; omega
      have inside : (h.take (p + 1)).take keep <+: h :=
        (List.take_prefix _ _).trans (List.take_prefix _ _)
      have agree : (h.take (p + 1)).take (p + 1) = h.take (p + 1) := by
        rw [List.take_take, Nat.min_self]
      rw [← grown, ih (matching_take h (p + 1)) agree inside (by omega) (by omega) (by omega)
        (by omega), merge_take_take h (by omega)]
    rw [next, splice]
    split_ifs with below
    · refine ih matching ?_ covered (by omega) (by omega) kept (by omega)
      have reachable : p + 1 ≤ (l.take keep).length := by simp; omega
      rw [prefix_take (List.take_prefix keep l) reachable, prefix_take covered reachable]
    · split
      · rename_i own found
        split_ifs with same
        · refine ih matching (matching p own h[p] found shown same) covered ?_ (by omega) kept
            (by omega)
          exact (List.getElem?_eq_some_iff.mp found).1
        · rw [agree, cut (by omega), merge_cut (not_prefix_of_differ found shown same (by omega))]
      · rename_i beyond
        have whole : l = h.take p := by
          rw [← agree, List.take_of_length_le (List.getElem?_eq_none_iff.mp beyond)]
        rw [whole, cut (by omega), merge_take_take h (by omega)]

/-- Merging keeps an entry when no term up to it differs. -/
theorem merge_retains (matching : Matching l h) {i : Nat} {e : E} (found : l[i]? = some e)
    (stamps : ∀ j a b, j ≤ i → l[j]? = some a → (h.take m)[j]? = some b → term a = term b) :
    (merge l (h.take m))[i]? = some e := by
  rcases merge_cases l (h.take m) with ⟨same, _⟩ | ⟨same, cut⟩
  · rw [same]
    exact found
  have reach := (List.getElem?_eq_some_iff.mp found).1
  have agree (j : Nat) (below : j ≤ i) (shown : j < (h.take m).length) :
      l.take (j + 1) = (h.take m).take (j + 1) := by
    have own : l[j]? = some l[j] := List.getElem?_eq_getElem (by omega)
    have other : (h.take m)[j]? = some (h.take m)[j] := List.getElem?_eq_getElem shown
    have here : h[j]? = some (h.take m)[j] := by rw [List.getElem_take]; simp
    rw [matching j _ _ own here (stamps j _ _ below own other), List.take_take]
    rw [List.length_take] at shown
    rw [Nat.min_eq_left (by omega)]
  have longer : i < (h.take m).length := by
    by_contra short
    rcases length : (h.take m).length with _ | j
    · exact cut (List.length_eq_zero_iff.mp length ▸ List.nil_prefix)
    · have whole := agree j (by omega) (by omega)
      rw [← length, List.take_length] at whole
      exact cut (whole ▸ List.take_prefix _ _)
  have position := congrArg (·[i]?) (agree i (Nat.le_refl i) longer)
  simp only [List.getElem?_take, Nat.lt_succ_self, if_true] at position
  rw [same, ← found, position]
  simp only [List.getElem?_take]

end Consensus
