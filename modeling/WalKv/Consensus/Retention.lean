import WalKv.Consensus.Completeness

/-! What nodes hold on to. A node that stays in a term keeps what its leader's log has in common
with its own, and a committed prefix stays in the logs of a quorum for good. -/
namespace Consensus

variable {N E : Type} [Stamped E] {q : Quorums N} {s s' : State N E} {n : N} {x : List E} {t k : Nat}
open Function

theorem step_keeps_shared (step : Step q s s') (same : s'.term n = s.term n)
    (own : x <+: s.log n) (shown : x <+: s.hist (s.term n)) : x <+: s'.log n := by
  cases step with
  | raise | vote | elect | commit | learn => exact own
  | append v e led leading stamp =>
    by_cases here : n = v
    · subst here
      simpa [append] using own.trans (List.prefix_append _ [e])
    · simpa [append, here] using own
  | accept v u m led within later =>
    by_cases here : n = v
    · subst here
      have term : u = s.term n := by simpa [accept] using same
      subst term
      simpa [accept] using common_prefix_merge own shown m
    · simpa [accept, here] using own

theorem steps_keep_shared (steps : Steps q s s') (same : s'.term n = s.term n)
    (led : Led s (s.term n)) (own : x <+: s.log n) (shown : x <+: s.hist (s.term n)) :
    x <+: s'.log n := by
  induction steps with
  | refl => exact own
  | @tail t u before step ih =>
    have first := (steps_extends before).term n
    have second := (step_extends step).term n
    have here : t.term n = s.term n := by omega
    apply step_keeps_shared step (by omega) (ih here)
    rw [here]
    exact shown.trans ((steps_extends before).hist led)

theorem committed_held (inv : Invariant q s) (committed : s.commits t k) :
    ∃ holders, q.IsQuorum holders ∧ ∀ v ∈ holders, (s.hist t).take k <+: s.log v := by
  obtain ⟨_, _, holders, quorum, holds⟩ := inv.committed committed
  refine ⟨holders, quorum, ?_⟩
  intro v holder
  obtain ⟨m, within, ack⟩ := holds v holder
  apply inv.kept ack within
  intro u b later _ elected
  exact completeness inv committed u b later elected

/-- What a node knew to be committed is in the logs of a quorum from then on. -/
theorem Known.held (inv : Invariant q s) (known : Known s n k) (grown : Extends s s')
    (inv' : Invariant q s') :
    k = 0 ∨ ∃ holders, q.IsQuorum holders ∧ ∀ v ∈ holders, (s.log n).take k <+: s'.log v := by
  rcases known with none | ⟨t, j, committed, _, within, inside⟩
  · exact .inl none
  · have bound := inv.commit_within committed
    have length : k ≤ ((s.hist t).take k).length := by
      rw [List.length_take]
      omega
    have own : (s.log n).take k = (s.hist t).take k := by
      rw [prefix_take inside length, List.take_take, Nat.min_self]
    obtain ⟨holders, quorum, held⟩ := committed_held inv' (grown.commits committed)
    refine .inr ⟨holders, quorum, ?_⟩
    intro v holder
    have whole := held v holder
    rw [grown.hist_take (inv.committed committed).1 bound] at whole
    rw [own]
    exact (take_prefix_take _ within).trans whole

theorem Known.agree {v : N} {j : Nat} (inv : Invariant q s) (known : Known s n k) (other : Known s v j) :
    (s.log n).take (min k j) = (s.log v).take (min k j) := by
  apply List.ext_getElem?
  intro i
  simp only [List.getElem?_take]
  split_ifs with below
  · have left := known.within inv
    have right := other.within inv
    have here : (s.log n)[i]? = some (s.log n)[i] := List.getElem?_eq_getElem (by omega)
    have there : (s.log v)[i]? = some (s.log v)[i] := List.getElem?_eq_getElem (by omega)
    obtain ⟨t, p, committed, reach, found⟩ := known.entry inv (by omega) here
    obtain ⟨u, r, committed', reach', found'⟩ := other.entry inv (by omega) there
    have agree := commits_agree inv committed committed' reach reach'
    rw [here, there, ← found, ← found', agree]
  · rfl

/-- What a node knew to be committed stays where it is in its log. -/
theorem Known.stays (inv : Invariant q s) (known : Known s n k) (grown : Extends s s')
    (inv' : Invariant q s') (known' : Known s' n k) : (s'.log n).take k = (s.log n).take k := by
  apply List.ext_getElem?
  intro i
  simp only [List.getElem?_take]
  split_ifs with below
  · have left := known.within inv
    have right := known'.within inv'
    have before : (s.log n)[i]? = some (s.log n)[i] := List.getElem?_eq_getElem (by omega)
    have after : (s'.log n)[i]? = some (s'.log n)[i] := List.getElem?_eq_getElem (by omega)
    obtain ⟨t, p, committed, reach, found⟩ := known.entry inv below before
    obtain ⟨u, r, committed', reach', found'⟩ := known'.entry inv' below after
    have agree := commits_agree inv' (grown.commits committed) committed' reach reach'
    have kept : (s'.hist t)[i]? = (s.hist t)[i]? := by
      have same := congrArg (·[i]?) (grown.hist_take (inv.committed committed).1
        (inv.commit_within committed))
      simpa only [List.getElem?_take, if_pos reach] using same
    rw [before, after, ← found, ← found', ← agree, kept]
  · rfl

end Consensus
