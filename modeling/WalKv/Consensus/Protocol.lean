import WalKv.Consensus.Prefix
import Mathlib.Logic.Function.Basic
import Mathlib.Logic.Relation
import Mathlib.Data.Set.Basic

/-! Log replication under numbered terms, each led at most once. A node holds a
log, a term and the length it knows to be committed. The remaining components
are history: who voted with which log, which prefix each node acknowledged in
which term, the log a term's leader started from, how far that log has grown,
and which prefixes a quorum acknowledged. Uniqueness of a term's leader is part
of the protocol; an implementation has to establish it to refine this one. -/
namespace Consensus

/-- Sets of nodes any two of which share a member. -/
structure Quorums (N : Type) where
  IsQuorum : Set N → Prop
  meet : ∀ {a b}, IsQuorum a → IsQuorum b → ∃ v, v ∈ a ∧ v ∈ b

structure State (N E : Type) where
  term : N → Nat
  log : N → List E
  commit : N → Nat
  /-- The log that the leader of a term was elected with. -/
  lead : Nat → Option (List E)
  /-- The log of a term's leader, as far as it has grown. -/
  hist : Nat → List E
  votes : N → Nat → List E → Prop
  acks : N → Nat → Nat → Prop
  commits : Nat → Nat → Prop

variable {N E : Type} [Stamped E]
open Stamped Function

def Led (s : State N E) (t : Nat) : Prop := ∃ b, s.lead t = some b

/-- Node `n` may count its first `i` entries as committed. -/
def Known (s : State N E) (n : N) (i : Nat) : Prop :=
  i = 0 ∨ ∃ t k, s.commits t k ∧ t ≤ s.term n ∧ i ≤ k ∧ (s.hist t).take i <+: s.log n

/-- The entry at position `k` of the leader's log was made in its own term. -/
def OwnEntry (s : State N E) (t k : Nat) : Prop :=
  ∃ p e, (s.hist t).take k = p ++ [e] ∧ term e = t

section Steps
open Classical

noncomputable def raise (s : State N E) (n : N) (t : Nat) : State N E :=
  { s with term := update s.term n t }

def vote (s : State N E) (n : N) : State N E :=
  { s with votes := fun v u l => s.votes v u l ∨ v = n ∧ u = s.term n ∧ l = s.log n }

noncomputable def elect (s : State N E) (n : N) : State N E :=
  { s with
    lead := update s.lead (s.term n) (some (s.log n))
    hist := update s.hist (s.term n) (s.log n) }

noncomputable def append (s : State N E) (n : N) (e : E) : State N E :=
  { s with
    log := update s.log n (s.log n ++ [e])
    hist := update s.hist (s.term n) (s.log n ++ [e]) }

noncomputable def accept (s : State N E) (n : N) (t m : Nat) : State N E :=
  { s with
    term := update s.term n t
    log := update s.log n (merge (s.log n) ((s.hist t).take m))
    acks := fun v u i => s.acks v u i ∨ v = n ∧ u = t ∧ i = m }

def commit (s : State N E) (t k : Nat) : State N E :=
  { s with commits := fun u i => s.commits u i ∨ u = t ∧ i = k }

noncomputable def learn (s : State N E) (n : N) (i : Nat) : State N E :=
  { s with commit := update s.commit n i }

end Steps

inductive Step (q : Quorums N) (s : State N E) : State N E → Prop where
  | raise (n : N) (t : Nat) : s.term n ≤ t → Step q s (raise s n t)
  | vote (n : N) : s.lead (s.term n) = none → Step q s (vote s n)
  | elect (n : N) (voters : Set N) : q.IsQuorum voters → s.lead (s.term n) = none →
      (∀ v ∈ voters, ∃ l, s.votes v (s.term n) l ∧ UpToDate l (s.log n)) →
      Step q s (elect s n)
  | append (n : N) (e : E) : Led s (s.term n) → s.log n = s.hist (s.term n) →
      term e = s.term n → Step q s (append s n e)
  | accept (n : N) (t m : Nat) : Led s t → m ≤ (s.hist t).length → s.term n ≤ t →
      Step q s (accept s n t m)
  | commit (t k : Nat) (holders : Set N) : q.IsQuorum holders → Led s t → OwnEntry s t k →
      (∀ v ∈ holders, ∃ m, k ≤ m ∧ s.acks v t m) → Step q s (commit s t k)
  | learn (n : N) (i : Nat) : Known s n i → Step q s (learn s n i)

abbrev Steps (q : Quorums N) : State N E → State N E → Prop := Relation.ReflTransGen (Step q)

def initial : State N E where
  term _ := 0
  log _ := []
  commit _ := 0
  lead _ := none
  hist _ := []
  votes _ _ _ := False
  acks _ _ _ := False
  commits _ _ := False

def Reachable (q : Quorums N) (s : State N E) : Prop := Steps q initial s

end Consensus
