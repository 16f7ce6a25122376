import WalKv.Consensus.Invariant
import WalKv.Consensus.Splice

/-! Later leaders have every committed prefix, and therefore no two nodes know
different entries to be committed at one position. -/
namespace Consensus

variable {N E : Type} [Stamped E] {q : Quorums N} {s s' : State N E} {l l' b x : List E}
open Stamped Function

/-- A log at least as up to date as one that has `x` has `x` itself, provided
that every leader of a term after `t` up to its own last term does. -/
theorem UpToDate.keeps (inv : Invariant q s) (order : UpToDate l b)
    (rootedVoter : Rooted s l) (rooted : Rooted s b)
    (own : x = p ++ [e]) (stamps : ∀ y ∈ x, term y ≤ t) (stamp : term e = t) (inVoter : x <+: l)
    (later : ∀ w base, t < w → w ≤ lastTerm b → s.lead w = some base → x <+: base) : x <+: b := by
  have member : e ∈ l := inVoter.mem (by simp [own])
  have reached : t ≤ lastTerm l := stamp ▸ inv.stamps_le_last rootedVoter member
  obtain ⟨lp, le, splitL, lastL⟩ := split_last (List.ne_nil_of_mem member)
  rcases order with newer | ⟨same, longer⟩
  · have nonempty : b ≠ [] := by
      rintro rfl
      simp at newer
    obtain ⟨bp, be, rfl, lastB⟩ := split_last nonempty
    obtain ⟨⟨base, elected⟩, inside⟩ := rooted bp be List.prefix_rfl
    have based := later (term be) base (by omega) (by omega) elected
    have inLeader : x <+: s.hist (term be) := based.trans (inv.led elected).grown
    rcases Nat.le_total x.length (bp ++ [be]).length with shorter | longer
    · exact List.prefix_of_prefix_length_le inLeader inside shorter
    · have covered := List.prefix_of_prefix_length_le inside inLeader longer
      have old := stamps be (covered.mem (by simp))
      omega
  · have nonempty : b ≠ [] := by
      rintro rfl
      simp [splitL] at longer
    obtain ⟨bp, be, splitB, lastB⟩ := split_last nonempty
    have insideL := (rootedVoter lp le (splitL ▸ List.prefix_rfl)).2
    have insideB := (rooted bp be (splitB ▸ List.prefix_rfl)).2
    rw [← splitL, ← lastL, same] at insideL
    rw [← splitB, ← lastB] at insideB
    exact inVoter.trans (List.prefix_of_prefix_length_le insideL insideB longer)

/-- Every leader of a later term was elected with every committed prefix. The
induction is on the later term: the quorum that elected it shares a node with
the quorum that acknowledged the prefix, and that node still had it when voting. -/
theorem completeness (inv : Invariant q s) (committed : s.commits t k) :
    ∀ u b, t < u → s.lead u = some b → (s.hist t).take k <+: b := by
  intro u
  induction u using Nat.strong_induction_on with
  | _ u ih =>
    intro b later elected
    obtain ⟨led, ⟨p, e, own, stamp⟩, holders, quorum, holds⟩ := inv.committed committed
    obtain ⟨voters, majority, granted⟩ := inv.elected elected
    obtain ⟨v, held, voted⟩ := q.meet quorum majority
    obtain ⟨m, within, ack⟩ := holds v held
    obtain ⟨l, vote, order⟩ := granted v voted
    have inVote := inv.carried ack within vote later
      fun w base newer inside isLead => ih w inside base newer isLead
    have started := inv.led elected
    have rooted := started.rooted.shorter started.grown
    apply order.keeps inv (inv.voted vote).2 rooted own _ stamp inVote
    · intro w base newer last isLead
      have older : lastTerm b < u := by
        by_cases empty : b = []
        · simp only [empty, lastTerm_nil]
          omega
        · obtain ⟨bp, be, rfl, same⟩ := split_last empty
          rw [same]
          exact started.older be (by simp)
      exact ih w (by omega) base newer isLead
    · intro y member
      exact inv.stamps_hist led y (List.mem_of_mem_take member)

theorem committed_in_leader (inv : Invariant q s) (committed : s.commits t k) (led : Led s u)
    (later : t ≤ u) : (s.hist t).take k <+: s.hist u := by
  rcases Nat.eq_or_lt_of_le later with same | newer
  · rw [same]
    exact List.take_prefix _ _
  · obtain ⟨b, elected⟩ := led
    exact (completeness inv committed u b newer elected).trans (inv.led elected).grown

theorem commits_agree (inv : Invariant q s) (first : s.commits t k) (second : s.commits u j)
    (left : i < k) (right : i < j) : (s.hist t)[i]? = (s.hist u)[i]? := by
  have agree {t k u} (first : s.commits t k) (led : Led s u) (ordered : t ≤ u) (left : i < k) :
      (s.hist t)[i]? = (s.hist u)[i]? := by
    obtain ⟨rest, same⟩ := committed_in_leader inv first led ordered
    have bound := inv.commit_within first
    rw [← same, List.getElem?_append_left (by simp only [List.length_take]; omega),
      List.getElem?_take, if_pos left]
  rcases Nat.le_total t u with ordered | ordered
  · exact agree first (inv.committed second).1 ordered left
  · exact (agree second (inv.committed first).1 ordered right).symm

/-- Two rooted logs match wherever their terms do. -/
theorem Rooted.matching_logs (first : Rooted s l) (second : Rooted s l') : Matching l l' := by
  intro i a b left right stamps
  have split {x : List E} {y : E} (found : x[i]? = some y) : x.take (i + 1) = x.take i ++ [y] := by
    obtain ⟨bound, rfl⟩ := List.getElem?_eq_some_iff.mp found
    exact (List.take_append_getElem bound).symm
  have lengthL : (l.take i).length = i := by
    have := (List.getElem?_eq_some_iff.mp left).1
    simp only [List.length_take]
    omega
  have lengthR : (l'.take i).length = i := by
    have := (List.getElem?_eq_some_iff.mp right).1
    simp only [List.length_take]
    omega
  rw [split left, split right]
  exact first.matching second (split left ▸ List.take_prefix _ _)
    (split right ▸ List.take_prefix _ _) (lengthL.trans lengthR.symm) stamps

/-- What a node calls committed is committed and stays in its log. -/
def Settled (s : State N E) : Prop := ∀ n, Known s n (s.commit n)

theorem Known.mono (inv : Invariant q s) (known : Known s n i) (grown : Extends s s')
    (longer : s.log n <+: s'.log n) : Known s' n i := by
  rcases known with zero | ⟨t, k, committed, reached, within, inside⟩
  · exact Or.inl zero
  · refine Or.inr ⟨t, k, grown.commits committed, reached.trans (grown.term n), within, ?_⟩
    rw [grown.hist_take (inv.committed committed).1 (within.trans (inv.commit_within committed))]
    exact inside.trans longer

theorem Known.accept (inv : Invariant q s) (known : Known s n i) (led : Led s t)
    (later : s.term n ≤ t) : Known (accept s n t m) n i := by
  rcases known with zero | ⟨u, k, committed, reached, within, inside⟩
  · exact Or.inl zero
  · refine Or.inr ⟨u, k, committed, ?_, within, ?_⟩
    · simpa [Consensus.accept] using reached.trans later
    · have shown : (s.hist u).take i <+: s.hist t :=
        (take_prefix_take _ within).trans
          (committed_in_leader inv committed led (reached.trans later))
      simpa [Consensus.accept] using common_prefix_merge inside shown m

omit [Stamped E] in
theorem Known.shorter (known : Known s n i) (below : j ≤ i) : Known s n j := by
  rcases known with zero | ⟨t, k, committed, reached, within, inside⟩
  · exact Or.inl (by omega)
  · exact Or.inr ⟨t, k, committed, reached, below.trans within,
      (take_prefix_take _ below).trans inside⟩

/-- What a node knows to be committed is in the log of every leader from its
term on. -/
theorem Known.in_leader (inv : Invariant q s) (known : Known s n i) (led : Led s t)
    (later : s.term n ≤ t) : (s.log n).take i <+: s.hist t := by
  rcases known with rfl | ⟨u, k, committed, reached, within, inside⟩
  · simp
  · have bound := inv.commit_within committed
    have length : ((s.hist u).take i).length = i := by simp; omega
    have own : (s.log n).take i = (s.hist u).take i := by
      rw [prefix_take inside (by omega), List.take_take, Nat.min_self]
    rw [own]
    exact (take_prefix_take _ within).trans
      (committed_in_leader inv committed led (reached.trans later))

theorem Known.within (inv : Invariant q s) (known : Known s n i) : i ≤ (s.log n).length := by
  rcases known with rfl | ⟨u, k, committed, reached, within, inside⟩
  · exact Nat.zero_le _
  · have bound := inv.commit_within committed
    have length := inside.length_le
    simp only [List.length_take] at length
    omega

theorem Known.entry (inv : Invariant q s) (known : Known s n i) (below : j < i)
    (found : (s.log n)[j]? = some e) : ∃ t k, s.commits t k ∧ j < k ∧ (s.hist t)[j]? = some e := by
  rcases known with rfl | ⟨u, k, committed, reached, within, inside⟩
  · omega
  · refine ⟨u, k, committed, by omega, ?_⟩
    have bound := inv.commit_within committed
    obtain ⟨rest, same⟩ := inside
    rw [← same, List.getElem?_append_left (by simp; omega), List.getElem?_take,
      if_pos below] at found
    exact found

theorem settled_step (inv : Invariant q s) (settled : Settled s) (step : Step q s s') :
    Settled s' := by
  intro v
  have grown := step_extends step
  have old (longer : s.log v <+: s'.log v) : Known s' v (s.commit v) :=
    (settled v).mono inv grown longer
  cases step with
  | raise | vote | elect | commit => exact old List.prefix_rfl
  | append n e led leading stamp =>
    refine old ?_
    by_cases here : v = n
    · subst here
      simp [append]
    · simp [append, here]
  | accept n t m led within later =>
    by_cases here : v = n
    · subst here
      exact (settled v).accept inv led later
    · exact old (by simp [accept, here])
  | learn n i known =>
    by_cases here : v = n
    · subst here
      simpa [learn, Known] using known
    · simpa [learn, here] using old List.prefix_rfl

theorem reachable_invariant (run : Reachable q s) : Invariant q s ∧ Settled s := by
  induction run with
  | refl => exact ⟨invariant_initial, fun _ => Or.inl rfl⟩
  | tail _ step ih => exact ⟨invariant_step ih.1 step, settled_step ih.1 ih.2 step⟩

theorem steps_extends (steps : Steps q s s') : Extends s s' := by
  induction steps with
  | refl => exact .refl s
  | tail _ step ih => exact ih.trans (step_extends step)

end Consensus
