import WalKv.Consensus.Completeness

/-! Moves that an implementation makes at once: entering a term and voting in
it, a leader committing what a quorum including itself holds, a follower
accepting a prefix and learning how much of it is committed. -/
namespace Consensus

variable {N E : Type} [Stamped E] {q : Quorums N} {s : State N E} {n : N} {t k m i : Nat}
open Stamped Function

omit [Stamped E] in
theorem vacant_of_not_led (unled : ¬ Led s t) : s.lead t = none :=
  Option.eq_none_iff_forall_ne_some.mpr fun b elected => unled ⟨b, elected⟩

/-- Enter a term and vote in it; the vote is recorded unless the term is led. -/
theorem enter_and_vote (q : Quorums N) (s : State N E) (later : s.term n ≤ t) :
    ∃ s', Steps q s s' ∧ s'.lead = s.lead ∧ s'.hist = s.hist ∧ s'.log = s.log ∧
      s'.commit = s.commit ∧ (∀ v, v ≠ n → s'.term v = s.term v) ∧ s'.term n = t ∧
      (Led s' t ∨ s'.votes n t (s.log n)) := by
  have raised : Step q s (raise s n t) := .raise n t later
  have now : (raise s n t).term n = t := by simp [raise]
  have others : ∀ v, v ≠ n → (raise s n t).term v = s.term v := by
    intro v other
    simp [raise, other]
  by_cases led : Led s t
  · exact ⟨_, .single raised, rfl, rfl, rfl, rfl, others, now, Or.inl led⟩
  · have vacant : (raise s n t).lead ((raise s n t).term n) = none := by
      rw [now]
      exact vacant_of_not_led led
    exact ⟨_, .tail (.single raised) (.vote n vacant), rfl, rfl, rfl, rfl, others, now,
      Or.inr (Or.inr ⟨rfl, now.symm, rfl⟩)⟩

/-- A leader counts itself: it acknowledges its own log, commits and learns. -/
theorem commit_as_leader (led : Led s (s.term n)) (leading : s.log n = s.hist (s.term n))
    (own : OwnEntry s (s.term n) k)
    (held : q.IsQuorum {v | v = n ∧ k ≤ (s.log n).length ∨ ∃ m, k ≤ m ∧ s.acks v (s.term n) m})
    (within : k ≤ (s.log n).length) :
    ∃ s', Steps q s s' ∧ s'.lead = s.lead ∧ s'.hist = s.hist ∧ s'.log = s.log ∧
      s'.term = s.term ∧ s'.commit n = k ∧ (∀ v, v ≠ n → s'.commit v = s.commit v) ∧
      s'.commits (s.term n) k := by
  have whole : (s.hist (s.term n)).take (s.log n).length = s.log n := by
    rw [← leading, List.take_length]
  have acked : Step q s (accept s n (s.term n) (s.log n).length) :=
    .accept n _ _ led (by rw [leading]) le_rfl
  have log : (accept s n (s.term n) (s.log n).length).log = s.log := by
    simp [accept, whole, merge_kept]
  have term : (accept s n (s.term n) (s.log n).length).term = s.term := by
    simp [accept]
  have agreed : Step q (accept s n (s.term n) (s.log n).length)
      (commit (accept s n (s.term n) (s.log n).length) (s.term n) k) := by
    refine .commit _ k _ held led own fun v holder => ?_
    rcases holder with ⟨rfl, reached⟩ | ⟨i, reached, ack⟩
    · exact ⟨_, reached, Or.inr ⟨rfl, rfl, rfl⟩⟩
    · exact ⟨i, reached, Or.inl ack⟩
  have learned : Step q (commit (accept s n (s.term n) (s.log n).length) (s.term n) k)
      (learn (commit (accept s n (s.term n) (s.log n).length) (s.term n) k) n k) := by
    refine .learn n k (Or.inr ⟨s.term n, k, Or.inr ⟨rfl, rfl⟩, ?_, le_rfl, ?_⟩)
    · exact (congrFun term n).ge
    · have inside : (s.hist (s.term n)).take k <+: s.log n := leading ▸ List.take_prefix k _
      rwa [← log] at inside
  refine ⟨_, .tail (.tail (.single acked) agreed) learned, rfl, rfl, log, term, ?_, ?_,
    Or.inr ⟨rfl, rfl⟩⟩
  · simp [learn]
  · intro v other
    simp [learn, other, commit, accept]

theorem known_from_leader (inv : Invariant q s) (led : Led s t) (inside : i ≤ m)
    (known : i = 0 ∨ ∃ u k, s.commits u k ∧ u ≤ t ∧ i ≤ k) : Known (accept s n t m) n i := by
  refine known.imp_right fun ⟨u, k, committed, order, reached⟩ => ?_
  have term : (accept s n t m).term n = t := by simp [accept]
  have log : (accept s n t m).log n = merge (s.log n) ((s.hist t).take m) := by simp [accept]
  refine ⟨u, k, committed, term.ge.trans' order, reached, ?_⟩
  rw [log]
  refine List.IsPrefix.trans ?_ (shown_prefix_merge _ _)
  have shown : (s.hist u).take i <+: s.hist t :=
    (take_prefix_take _ reached).trans (committed_in_leader inv committed led order)
  exact List.prefix_take_iff.mpr ⟨shown, by simp only [List.length_take]; omega⟩

theorem accept_and_learn (led : Led s t) (within : m ≤ (s.hist t).length) (later : s.term n ≤ t)
    (known : Known (accept s n t m) n i) :
    ∃ s', Steps q s s' ∧ s'.lead = s.lead ∧ s'.hist = s.hist ∧
      s'.log n = merge (s.log n) ((s.hist t).take m) ∧ s'.term n = t ∧ s'.commit n = i ∧
      (∀ v, v ≠ n → s'.term v = s.term v ∧ s'.log v = s.log v ∧ s'.commit v = s.commit v) ∧
      s'.acks n t m := by
  have accepted : Step q s (accept s n t m) := .accept n t m led within later
  refine ⟨_, .tail (.single accepted) (.learn n i known), rfl, rfl, ?_, ?_, by simp [learn], ?_,
    Or.inr ⟨rfl, rfl, rfl⟩⟩
  · simp [learn, accept]
  · simp [learn, accept]
  · intro v other
    simp [learn, accept, other]

end Consensus
