import WalKv.Consensus.Protocol

/-! What every step of the replication protocol keeps. History only grows, every
log is a path through the leaders' logs, and a node that acknowledged a prefix
keeps it for as long as the leaders elected since then have it too. -/
namespace Consensus

variable {N E : Type} {q : Quorums N} {s s' : State N E} {l l' : List E}
open Function

/-- History never shrinks: terms rise, and what was elected, voted,
acknowledged or committed stays so. -/
structure Extends (s s' : State N E) : Prop where
  term : ∀ n, s.term n ≤ s'.term n
  lead : ∀ {t b}, s.lead t = some b → s'.lead t = some b
  hist : ∀ {t}, Led s t → s.hist t <+: s'.hist t
  votes : ∀ {v u l}, s.votes v u l → s'.votes v u l
  acks : ∀ {v t m}, s.acks v t m → s'.acks v t m
  commits : ∀ {t k}, s.commits t k → s'.commits t k

theorem Extends.refl (s : State N E) : Extends s s :=
  ⟨fun _ => Nat.le_refl _, id, fun _ => List.prefix_rfl, id, id, id⟩

theorem Extends.led (grown : Extends s s') (led : Led s t) : Led s' t := by
  obtain ⟨b, elected⟩ := led
  exact ⟨b, grown.lead elected⟩

theorem Extends.trans (first : Extends s s') (second : Extends s' s'') : Extends s s'' where
  term n := (first.term n).trans (second.term n)
  lead elected := second.lead (first.lead elected)
  hist led := (first.hist led).trans (second.hist (first.led led))
  votes h := second.votes (first.votes h)
  acks h := second.acks (first.acks h)
  commits h := second.commits (first.commits h)

theorem Extends.hist_take (grown : Extends s s') (led : Led s t)
    (within : k ≤ (s.hist t).length) : (s'.hist t).take k = (s.hist t).take k :=
  prefix_take (grown.hist led) within

/-- Every leader elected in a term between `t` and `bound` started from a log
that has the first `k` entries of the leader of `t`. -/
def LeadersKeep (s : State N E) (t k : Nat) (within : Nat → Prop) : Prop :=
  ∀ u b, t < u → within u → s.lead u = some b → (s.hist t).take k <+: b

theorem LeadersKeep.mono (grown : Extends s s') (led : Led s t) (bound : k ≤ (s.hist t).length)
    (keep : LeadersKeep s' t k within') (implies : ∀ u, within u → within' u) :
    LeadersKeep s t k within := by
  intro u b later inside elected
  have kept := keep u b later (implies u inside) (grown.lead elected)
  rwa [grown.hist_take led bound] at kept

variable [Stamped E]
open Stamped

/-- Every prefix of the log ends inside the log of the leader of its last term. -/
def Rooted (s : State N E) (l : List E) : Prop :=
  ∀ p e, p ++ [e] <+: l → Led s (term e) ∧ p ++ [e] <+: s.hist (term e)

theorem Rooted.shorter (rooted : Rooted s l) (shorter : l' <+: l) : Rooted s l' :=
  fun p e within => rooted p e (within.trans shorter)

theorem Rooted.mono (rooted : Rooted s l) (grown : Extends s s') : Rooted s' l := by
  intro p e within
  obtain ⟨led, inside⟩ := rooted p e within
  exact ⟨grown.led led, inside.trans (grown.hist led)⟩

theorem Rooted.merge (own : Rooted s l) (shown : Rooted s l') : Rooted s (merge l l') := by
  obtain ⟨same, _⟩ | ⟨same, _⟩ := merge_cases l l'
  · rwa [same]
  · rwa [same]

/-- Equal terms at one position force equal logs up to that position. -/
theorem Rooted.matching (first : Rooted s l) (second : Rooted s l')
    (left : p ++ [e] <+: l) (right : p' ++ [e'] <+: l')
    (position : p.length = p'.length) (stamps : term e = term e') :
    p ++ [e] = p' ++ [e'] := by
  have inLeft := (first p e left).2
  have inRight := (second p' e' right).2
  rw [← stamps] at inRight
  have shorter := List.prefix_of_prefix_length_le inLeft inRight (by simp [position])
  exact shorter.eq_of_length (by simp [position])

/-- The log of a term's leader: what it was elected with, then its own entries. -/
structure LedLog (s : State N E) (t : Nat) (b : List E) : Prop where
  grown : b <+: s.hist t
  older : ∀ e ∈ b, term e < t
  own : ∀ e ∈ (s.hist t).drop b.length, term e = t
  rooted : Rooted s (s.hist t)

theorem LedLog.stamps (led : LedLog s t b) : ∀ e ∈ s.hist t, term e ≤ t := by
  intro e member
  rw [← List.take_append_drop b.length (s.hist t), List.mem_append] at member
  rcases member with old | new
  · rw [← List.prefix_iff_eq_take.mp led.grown] at old
    exact Nat.le_of_lt (led.older e old)
  · exact Nat.le_of_eq (led.own e new)

/-- All that the protocol keeps apart from what a node may call committed,
which rests on completeness of later leaders. -/
structure Invariant (q : Quorums N) (s : State N E) : Prop where
  led : ∀ {t b}, s.lead t = some b → LedLog s t b
  rooted : ∀ n, Rooted s (s.log n)
  bounded : ∀ n, ∀ e ∈ s.log n, term e ≤ s.term n
  elected : ∀ {u b}, s.lead u = some b → ∃ voters, q.IsQuorum voters ∧
    ∀ v ∈ voters, ∃ l, s.votes v u l ∧ UpToDate l b
  voted : ∀ {v u l}, s.votes v u l → u ≤ s.term v ∧ Rooted s l
  acked : ∀ {v t m}, s.acks v t m → t ≤ s.term v ∧ Led s t ∧ m ≤ (s.hist t).length
  /-- An acknowledged prefix stays in the log while no newer leader lacks it. -/
  kept : ∀ {v t m k}, s.acks v t m → k ≤ m →
    LeadersKeep s t k (· ≤ s.term v) → (s.hist t).take k <+: s.log v
  /-- The same for the log a later vote was cast with. -/
  carried : ∀ {v t m k u l}, s.acks v t m → k ≤ m → s.votes v u l → t < u →
    LeadersKeep s t k (· < u) → (s.hist t).take k <+: l
  committed : ∀ {t k}, s.commits t k → Led s t ∧ OwnEntry s t k ∧
    ∃ holders, q.IsQuorum holders ∧ ∀ v ∈ holders, ∃ m, k ≤ m ∧ s.acks v t m

theorem OwnEntry.mono (own : OwnEntry s t k) (grown : Extends s s') (led : Led s t)
    (within : k ≤ (s.hist t).length) : OwnEntry s' t k := by
  rwa [OwnEntry, grown.hist_take led within]

theorem Invariant.rooted_hist (inv : Invariant q s) (led : Led s t) : Rooted s (s.hist t) := by
  obtain ⟨b, elected⟩ := led
  exact (inv.led elected).rooted

theorem Invariant.stamps_hist (inv : Invariant q s) (led : Led s t) :
    ∀ e ∈ s.hist t, term e ≤ t := by
  obtain ⟨b, elected⟩ := led
  exact (inv.led elected).stamps

theorem Invariant.commit_within (inv : Invariant q s) (committed : s.commits t k) :
    k ≤ (s.hist t).length := by
  obtain ⟨_, _, holders, quorum, holds⟩ := inv.committed committed
  obtain ⟨v, member, _⟩ := q.meet quorum quorum
  obtain ⟨m, within, ack⟩ := holds v member
  exact within.trans (inv.acked ack).2.2

/-- Entries of a rooted log are no newer than its last one. -/
theorem Invariant.stamps_le_last (inv : Invariant q s) (rooted : Rooted s l) (member : e ∈ l) :
    term e ≤ lastTerm l := by
  obtain ⟨p, last, rfl, same⟩ := split_last (List.ne_nil_of_mem member)
  obtain ⟨led, inside⟩ := rooted p last List.prefix_rfl
  rw [same]
  exact inv.stamps_hist led e (inside.mem member)

/-- A candidate of a term without a leader holds only older entries. -/
theorem Invariant.older (inv : Invariant q s) (vacant : s.lead (s.term n) = none) :
    ∀ e ∈ s.log n, term e < s.term n := by
  intro e member
  obtain ⟨p, rest, same⟩ := List.append_of_mem member
  have inside : p ++ [e] <+: s.log n := ⟨rest, by simp [same]⟩
  obtain ⟨b, elected⟩ := (inv.rooted n p e inside).1
  have bound := inv.bounded n e member
  rcases Nat.lt_or_eq_of_le bound with less | same
  · exact less
  · rw [same, vacant] at elected
    contradiction

theorem step_extends (step : Step q s s') : Extends s s' := by
  cases step with
  | raise n t later =>
    refine ⟨fun v => ?_, id, fun _ => List.prefix_rfl, id, id, id⟩
    by_cases same : v = n
    · subst same
      simpa [raise] using later
    · simp [raise, same]
  | vote n vacant => exact ⟨fun _ => le_rfl, id, fun _ => List.prefix_rfl, Or.inl, id, id⟩
  | elect n voters quorum vacant granted =>
    have other : ∀ {t}, Led s t → t ≠ s.term n := by
      rintro t ⟨b, elected⟩ rfl
      rw [vacant] at elected
      contradiction
    refine ⟨fun _ => le_rfl, ?_, ?_, id, id, id⟩
    · intro t b elected
      simpa [elect, update_of_ne (other ⟨b, elected⟩)] using elected
    · intro t led
      simp [elect, update_of_ne (other led)]
  | append n e led leading stamp =>
    refine ⟨fun _ => le_rfl, id, ?_, id, id, id⟩
    intro t _
    by_cases same : t = s.term n
    · subst same
      simp [append, leading]
    · simp [append, same]
  | accept n t m led within later =>
    refine ⟨fun v => ?_, id, fun _ => List.prefix_rfl, id, Or.inl, id⟩
    by_cases same : v = n
    · subst same
      simpa [accept] using later
    · simp [accept, same]
  | commit t k holders quorum led own holds =>
    exact ⟨fun _ => le_rfl, id, fun _ => List.prefix_rfl, id, id, Or.inl⟩
  | learn n i known => exact ⟨fun _ => le_rfl, id, fun _ => List.prefix_rfl, id, id, id⟩

theorem led_preserved (inv : Invariant q s) (step : Step q s s') (elected : s'.lead t = some b) :
    LedLog s' t b := by
  have grown := step_extends step
  have unchanged (sameLead : s'.lead = s.lead) (sameHist : s'.hist = s.hist) : LedLog s' t b := by
    rw [sameLead] at elected
    have old := inv.led elected
    exact ⟨sameHist ▸ old.grown, old.older, sameHist ▸ old.own, sameHist ▸ old.rooted.mono grown⟩
  cases step with
  | raise | vote | accept | commit | learn => exact unchanged rfl rfl
  | elect n voters quorum vacant granted =>
    by_cases same : t = s.term n
    · subst same
      obtain rfl : s.log n = b := by simpa [elect] using elected
      have hist : (elect s n).hist (s.term n) = s.log n := by simp [elect]
      refine ⟨hist ▸ List.prefix_rfl, inv.older vacant, ?_, hist ▸ (inv.rooted n).mono grown⟩
      simp [hist]
    · have old := inv.led (show s.lead t = some b by simpa [elect, same] using elected)
      have hist : (elect s n).hist t = s.hist t := by simp [elect, same]
      exact ⟨hist ▸ old.grown, old.older, hist ▸ old.own, hist ▸ old.rooted.mono grown⟩
  | append n e led leading stamp =>
    have old := inv.led (show s.lead t = some b from elected)
    by_cases same : t = s.term n
    · subst same
      have hist : (append s n e).hist (s.term n) = s.hist (s.term n) ++ [e] := by
        simp [append, leading]
      refine ⟨hist ▸ old.grown.trans (List.prefix_append _ _), old.older, ?_, ?_⟩
      · intro x member
        rw [hist, List.drop_append_of_le_length old.grown.length_le, List.mem_append] at member
        rcases member with before | last
        · exact old.own x before
        · rw [List.mem_singleton.mp last, stamp]
      · intro p x inside
        rw [hist, List.prefix_concat_iff] at inside
        rcases inside with whole | before
        · obtain ⟨rfl, single⟩ := List.append_inj' whole rfl
          obtain rfl : x = e := by simpa using single
          refine ⟨stamp ▸ led, ?_⟩
          simp only [stamp, hist, List.prefix_rfl]
        · exact old.rooted.mono grown p x before
    · have hist : (append s n e).hist t = s.hist t := by simp [append, same]
      exact ⟨hist ▸ old.grown, old.older, hist ▸ old.own, hist ▸ old.rooted.mono grown⟩

theorem rooted_preserved (inv : Invariant q s) (step : Step q s s') (v : N) :
    Rooted s' (s'.log v) := by
  have grown := step_extends step
  have old := (inv.rooted v).mono grown
  cases step with
  | raise | vote | elect | commit | learn => exact old
  | append n e led leading stamp =>
    by_cases same : v = n
    · subst same
      obtain ⟨b, elected⟩ := led
      have whole := led_preserved inv (.append v e ⟨b, elected⟩ leading stamp) (t := s.term v)
        (b := b) elected
      have log : (append s v e).log v = (append s v e).hist (s.term v) := by simp [append]
      rw [log]
      exact whole.rooted
    · have log : (append s n e).log v = s.log v := by simp [append, same]
      rwa [log]
  | accept n t m led within later =>
    by_cases same : v = n
    · subst same
      have log : (accept s v t m).log v = merge (s.log v) ((s.hist t).take m) := by simp [accept]
      rw [log]
      exact old.merge (((inv.rooted_hist led).shorter (List.take_prefix _ _)).mono grown)
    · have log : (accept s n t m).log v = s.log v := by simp [accept, same]
      rwa [log]

theorem bounded_preserved (inv : Invariant q s) (step : Step q s s') (v : N) :
    ∀ e ∈ s'.log v, term e ≤ s'.term v := by
  have raised := (step_extends step).term v
  have old : ∀ e ∈ s.log v, term e ≤ s'.term v := fun e member =>
    (inv.bounded v e member).trans raised
  cases step with
  | raise | vote | elect | commit | learn => exact old
  | append n e led leading stamp =>
    by_cases same : v = n
    · subst same
      intro x member
      rw [show (append s v e).log v = s.log v ++ [e] by simp [append], List.mem_append] at member
      rcases member with before | last
      · exact old x before
      · rw [List.mem_singleton.mp last, stamp]
        exact raised
    · rwa [show (append s n e).log v = s.log v by simp [append, same]]
  | accept n t m led within later =>
    by_cases same : v = n
    · subst same
      intro x member
      rw [show (accept s v t m).log v = merge (s.log v) ((s.hist t).take m) by simp [accept]]
        at member
      obtain ⟨kept, _⟩ | ⟨cut, _⟩ := merge_cases (s.log v) ((s.hist t).take m)
      · exact old x (kept ▸ member)
      · rw [cut] at member
        have stamp := inv.stamps_hist led x (List.mem_of_mem_take member)
        simpa [accept] using stamp
    · rwa [show (accept s n t m).log v = s.log v by simp [accept, same]]

theorem elected_preserved (inv : Invariant q s) (step : Step q s s') (elected : s'.lead u = some b) :
    ∃ voters, q.IsQuorum voters ∧ ∀ v ∈ voters, ∃ l, s'.votes v u l ∧ UpToDate l b := by
  have grown := step_extends step
  have old (before : s.lead u = some b) :
      ∃ voters, q.IsQuorum voters ∧ ∀ v ∈ voters, ∃ l, s'.votes v u l ∧ UpToDate l b := by
    obtain ⟨voters, quorum, granted⟩ := inv.elected before
    refine ⟨voters, quorum, fun v member => ?_⟩
    obtain ⟨l, vote, order⟩ := granted v member
    exact ⟨l, grown.votes vote, order⟩
  cases step with
  | raise | vote | append | accept | commit | learn => exact old elected
  | elect n voters quorum vacant granted =>
    by_cases same : u = s.term n
    · subst same
      obtain rfl : s.log n = b := by simpa [elect] using elected
      exact ⟨voters, quorum, granted⟩
    · exact old (by simpa [elect, same] using elected)

theorem voted_preserved (inv : Invariant q s) (step : Step q s s') (vote : s'.votes v u l) :
    u ≤ s'.term v ∧ Rooted s' l := by
  have grown := step_extends step
  have old (before : s.votes v u l) : u ≤ s'.term v ∧ Rooted s' l :=
    ⟨(inv.voted before).1.trans (grown.term v), (inv.voted before).2.mono grown⟩
  cases step with
  | raise | elect | append | accept | commit | learn => exact old vote
  | vote n vacant =>
    rcases vote with before | ⟨rfl, rfl, rfl⟩
    · exact old before
    · exact ⟨le_rfl, (inv.rooted v).mono grown⟩

theorem acked_preserved (inv : Invariant q s) (step : Step q s s') (ack : s'.acks v t m) :
    t ≤ s'.term v ∧ Led s' t ∧ m ≤ (s'.hist t).length := by
  have grown := step_extends step
  have old (before : s.acks v t m) : t ≤ s'.term v ∧ Led s' t ∧ m ≤ (s'.hist t).length := by
    obtain ⟨reached, led, within⟩ := inv.acked before
    exact ⟨reached.trans (grown.term v), grown.led led,
      within.trans (grown.hist led).length_le⟩
  cases step with
  | raise | vote | elect | append | commit | learn => exact old ack
  | accept n t' m' led within later =>
    rcases ack with before | ⟨rfl, rfl, rfl⟩
    · exact old before
    · exact ⟨by simp [accept], led, within⟩

theorem kept_preserved (inv : Invariant q s) (step : Step q s s') (ack : s'.acks v t m)
    (within : k ≤ m) (keep : LeadersKeep s' t k (· ≤ s'.term v)) :
    (s'.hist t).take k <+: s'.log v := by
  have grown := step_extends step
  have old (before : s.acks v t m) (longer : s.log v <+: s'.log v) :
      (s'.hist t).take k <+: s'.log v := by
    obtain ⟨_, led, bound⟩ := inv.acked before
    rw [grown.hist_take led (within.trans bound)]
    have earlier : LeadersKeep s t k (· ≤ s.term v) :=
      keep.mono grown led (within.trans bound) fun _ inside => inside.trans (grown.term v)
    exact (inv.kept before within earlier).trans longer
  cases step with
  | raise | vote | elect | commit | learn => exact old ack List.prefix_rfl
  | append n e led leading stamp =>
    refine old ack ?_
    by_cases here : v = n
    · subst here
      simp [append]
    · simp [append, here]
  | accept n t' m' led bound later =>
    by_cases here : v = n
    · subst here
      rw [show (accept s v t' m').log v = merge (s.log v) ((s.hist t').take m') by simp [accept]]
      rcases ack with before | ⟨_, rfl, rfl⟩
      · obtain ⟨reached, ledAck, boundAck⟩ := inv.acked before
        have earlier : LeadersKeep s t k (· ≤ s.term v) :=
          keep.mono grown ledAck (within.trans boundAck) fun _ inside =>
            inside.trans (grown.term v)
        have own := inv.kept before within earlier
        obtain ⟨b, elected⟩ := led
        have shown : (s.hist t).take k <+: s.hist t' := by
          rcases Nat.eq_or_lt_of_le (reached.trans later) with same | newer
          · rw [same]
            exact List.take_prefix _ _
          · have based := keep t' b newer (by simp [accept]) elected
            exact based.trans (inv.led elected).grown
        exact common_prefix_merge own shown m'
      · exact (take_prefix_take _ within).trans (shown_prefix_merge _ _)
    · rcases ack with before | ⟨same, _⟩
      · exact old before (by simp [accept, here])
      · exact absurd same here

theorem carried_preserved (inv : Invariant q s) (step : Step q s s') (ack : s'.acks v t m)
    (within : k ≤ m) (vote : s'.votes v u l) (later : t < u)
    (keep : LeadersKeep s' t k (· < u)) : (s'.hist t).take k <+: l := by
  have grown := step_extends step
  have old (acked : s.acks v t m) (voted : s.votes v u l) : (s'.hist t).take k <+: l := by
    obtain ⟨_, led, bound⟩ := inv.acked acked
    rw [grown.hist_take led (within.trans bound)]
    exact inv.carried acked within voted later
      (keep.mono grown led (within.trans bound) fun _ inside => inside)
  cases step with
  | raise | elect | append | commit | learn => exact old ack vote
  | vote n vacant =>
    rcases vote with before | ⟨rfl, rfl, rfl⟩
    · exact old ack before
    · apply inv.kept ack within
      intro w b newer inside elected
      rcases Nat.lt_or_eq_of_le inside with less | same
      · exact keep w b newer less elected
      · rw [same, vacant] at elected
        contradiction
  | accept n t' m' led bound reached =>
    rcases ack with before | ⟨rfl, rfl, rfl⟩
    · exact old before vote
    · have voted := (inv.voted vote).1
      omega

theorem committed_preserved (inv : Invariant q s) (step : Step q s s')
    (committed : s'.commits t k) : Led s' t ∧ OwnEntry s' t k ∧
      ∃ holders, q.IsQuorum holders ∧ ∀ v ∈ holders, ∃ m, k ≤ m ∧ s'.acks v t m := by
  have grown := step_extends step
  have old (before : s.commits t k) : Led s' t ∧ OwnEntry s' t k ∧
      ∃ holders, q.IsQuorum holders ∧ ∀ v ∈ holders, ∃ m, k ≤ m ∧ s'.acks v t m := by
    obtain ⟨led, own, holders, quorum, holds⟩ := inv.committed before
    refine ⟨grown.led led, own.mono grown led (inv.commit_within before), holders, quorum, ?_⟩
    intro v member
    obtain ⟨m, within, ack⟩ := holds v member
    exact ⟨m, within, grown.acks ack⟩
  cases step with
  | raise | vote | elect | append | accept | learn => exact old committed
  | commit t' k' holders quorum led own holds =>
    rcases committed with before | ⟨rfl, rfl⟩
    · exact old before
    · exact ⟨led, own, holders, quorum, holds⟩

theorem invariant_step (inv : Invariant q s) (step : Step q s s') : Invariant q s' where
  led := led_preserved inv step
  rooted := rooted_preserved inv step
  bounded := bounded_preserved inv step
  elected := elected_preserved inv step
  voted := voted_preserved inv step
  acked := acked_preserved inv step
  kept := kept_preserved inv step
  carried := carried_preserved inv step
  committed := committed_preserved inv step

theorem invariant_initial : Invariant q (initial : State N E) where
  led elected := by simp [initial] at elected
  rooted n p e inside := by simp [initial] at inside
  bounded n e member := by simp [initial] at member
  elected elected := by simp [initial] at elected
  voted vote := vote.elim
  acked ack := ack.elim
  kept ack := ack.elim
  carried ack := ack.elim
  committed committed := committed.elim

end Consensus
