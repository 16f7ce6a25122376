import Mathlib.Data.Finset.Max
import Mathlib.Data.Prod.Lex
import WalKv.Cluster.Progress

/-! Any quorum of two or more can elect one of its nodes by itself, from any state that a run
without snapshots reaches, whatever was lost and wherever nodes have restarted. A node that leads
does not campaign; where the node with the best log leads already, another one first makes it step
down. -/
namespace WalKv
open RaftCore Transition

/-- The nodes in `Q` hear of nobody else, none of them fails and no client gives up. -/
def Alone (Q : Finset Nat) (c : Cluster) : Action → Prop
  | .timeout n _ => n ∈ Q ∧ (c.server n).core.role ≠ .leader
  | .requestVote call _ => call.src ∈ Q ∧ call.dst ∈ Q
  | .voteAnswer answer => answer.voter ∈ Q ∧ answer.candidate ∈ Q
  | .build n peer => n ∈ Q ∧ peer ∈ Q ∧ (c.server n).core.role = .leader
  | .appendEntries call _ => call.src ∈ Q ∧ call.dst ∈ Q
  | .appendAnswer answer => answer.peer ∈ Q ∧ answer.leader ∈ Q
  | .propose n _ | .take n | .publish n _ | .acknowledge n _ => n ∈ Q
  | .deadlineExceeded .. | .compact .. | .crash .. | .crashUncompacted .. | .interrupt .. => False

theorem Alone.plain {Q : Finset Nat} {c : Cluster} {action : Action} (alone : Alone Q c action) :
    Plain c action := by
  cases action with
  | build n peer => exact ⟨alone.2.2, trivial, trivial⟩
  | deadlineExceeded | compact | crash | crashUncompacted | interrupt => exact alone.elim
  | timeout | requestVote | voteAnswer | propose | appendEntries | appendAnswer | take | publish
  | acknowledge => exact ⟨trivial, trivial, trivial⟩

namespace RaftCore
variable {W : Type} {core core' : RaftCore W} {args : RequestVoteArgs}

theorem last_of_logPart (same : core'.logPart = core.logPart) :
    core'.lastLogIndex = core.lastLogIndex ∧ core'.lastLogTerm = core.lastLogTerm := by
  simp only [logPart, Prod.mk.injEq] at same
  obtain ⟨_, entries, snapshot, _⟩ := same
  constructor
  · rw [RaftCore.lastLogIndex, RaftCore.lastLogIndex, entries, snapshot]
  · rw [RaftCore.lastLogTerm, RaftCore.lastLogTerm, entries, snapshot]

theorem Running.handleRequestVote_newer (running : core.Running)
    (newer : core.hard.currentTerm < args.term) (clock : Clock) :
    ∃ core', RaftCore.handleRequestVote clock args core =
        (.ok ⟨args.term, core.logOk args⟩, core') ∧
      core'.role = .follower ∧ core'.hard.currentTerm = args.term ∧
      core'.logPart = core.logPart := by
  have observed : core.observe args.term none = { core.saveHard ⟨args.term, none⟩ with
      role := .follower, leaderId := none, lease := core.lease.invalidate } := if_pos newer
  have grants : (core.observe args.term none).grants args = core.logOk args := by
    rw [observed]
    exact Bool.and_true _
  rw [running.handleRequestVote, if_neg (Nat.not_lt.mpr newer.le), grants, observed]
  split_ifs with ok
  · rw [ok]
    exact ⟨_, rfl, rfl, rfl, rfl⟩
  · rw [Bool.not_eq_true] at ok
    rw [ok]
    exact ⟨_, rfl, rfl, rfl, rfl⟩

end RaftCore

/-- No log has changed and no commit index. -/
def SameLogs (c c' : Cluster) : Prop := ∀ q, (c'.core q).logPart = (c.core q).logPart

theorem SameLogs.trans {c c' c'' : Cluster} (first : SameLogs c c') (second : SameLogs c' c'') :
    SameLogs c c'' :=
  fun q => (second q).trans (first q)

theorem sameLogs_apply {c : Cluster} {n : Nat} {e : Effect}
    (same : e.server.core.logPart = (c.core n).logPart) : SameLogs c (c.apply n e) := by
  intro q
  by_cases here : q = n
  · rw [here, c.apply_core_self, same]
  · rw [c.apply_core_other e here]

theorem Membership.listed {m : Membership} {n p : Nat} (member : n ∈ m.members)
    (other : p ∈ m.members) (distinct : p ≠ n) : p ∈ (m.config n).peerIds := by
  have inside := (m.shared n member).mem_iff.mpr other
  simpa [distinct] using inside

section Runs
variable [Bincode] {m : Membership} {c c' : Cluster} {Q : Finset Nat} {n p q t : Nat}
  {e : Effect}

/-- What the nodes in `Q` can make of a state. -/
abbrev Onward (m : Membership) (Q : Finset Nat) : Cluster → Cluster → Prop :=
  Reaches (step m) (Alone Q)

theorem onward_of_effect (action : Action) (acting : action.node = n) (member : n ∈ m.members)
    (alone : Alone Q c action) (acted : effect m c action = some e) : Onward m Q c (c.apply n e) := by
  subst acting
  exact .next action .refl alone (by simp [step, member, acted])

theorem onward_server (n : Nat) (action : Action) (acting : action.node = n)
    (member : n ∈ m.members) (alone : Alone Q c action) (acted : effect m c action = some e) :
    ∃ c', Onward m Q c c' ∧ c'.server n = e.server ∧ (∀ q, q ≠ n → c'.server q = c.server q) ∧
      c'.trace = c.trace ++ e.events :=
  ⟨_, onward_of_effect action acting member alone acted, Function.update_self ..,
    fun _ other => Function.update_of_ne other _ _, rfl⟩

theorem Reachable.onward (run : Reachable m Plain c) (onward : Onward m Q c c') :
    Reachable m Plain c' := by
  obtain ⟨start, initial, run⟩ := run
  obtain ⟨plain, _⟩ := onward.weaken (P := fun _ => True) trivial
    (fun _ _ _ => trivial) fun _ alone => alone.plain
  exact ⟨start, initial, run.trans plain⟩

/-- Node `n` campaigns in term `t`, has counted some votes and has asked those it waits for. -/
structure Canvass (c : Cluster) (n t votes : Nat) (waiting : List Nat) : Prop where
  role : (c.core n).role = .candidate
  term : (c.core n).hard.currentTerm = t
  campaign : (c.server n).campaign = some ⟨t, votes, waiting⟩
  asked : ∀ p ∈ waiting,
    ⟨n, p, ⟨t, n, (c.core n).lastLogIndex, (c.core n).lastLogTerm⟩⟩ ∈ c.voteCalls

theorem timeout_canvasses (node : Member m n (c.core n)) (member : n ∈ m.members) (inside : n ∈ Q)
    (free : (c.core n).role ≠ .leader) :
    ∃ c', Onward m Q c c' ∧
      Canvass c' n ((c.core n).hard.currentTerm + 1) 1 (m.config n).peerIds ∧
      SameLogs c c' ∧ ∀ q, q ≠ n → c'.core q = c.core q := by
  have acted : effect m c (.timeout n ⟨0, 0⟩) = some (timeoutEffect ⟨0, 0⟩ (c.server n)) := rfl
  simp only [timeoutEffect, show (c.server n).core = c.core n from rfl,
    node.running.becomeCandidate] at acted
  have onward : Onward m Q c (c.apply n _) :=
    onward_of_effect (.timeout n ⟨0, 0⟩) rfl member ⟨inside, free⟩ acted
  refine ⟨_, onward, ⟨?_, ?_, ?_, ?_⟩, ?_, ?_⟩
  · rw [c.apply_core_self]
    rfl
  · rw [c.apply_core_self]
    rfl
  · simp only [Cluster.apply, Function.update_self, ← node.peers]
    rfl
  · intro p listed
    rw [c.apply_core_self]
    refine List.mem_append_right _ (List.mem_map.mpr ⟨p, node.peers ▸ listed, ?_⟩)
    have own : ((c.core n).campaigning ⟨0, 0⟩).id = n := node.id
    rw [own, node.id]
    rfl
  · exact sameLogs_apply rfl
  · intro q other
    exact c.apply_core_other _ other

theorem canvasses [LawfulBincode] (run : Reachable m Plain c) (member : n ∈ m.members)
    (inside : n ∈ Q) (free : (c.core n).role ≠ .leader) (newer : (c.core n).hard.currentTerm < t) :
    ∃ c', Onward m Q c c' ∧ Canvass c' n t 1 (m.config n).peerIds ∧
      SameLogs c c' ∧ ∀ q, q ≠ n → c'.core q = c.core q := by
  obtain ⟨more, reached⟩ := Nat.exists_eq_add_of_lt newer
  induction more generalizing c with
  | zero =>
    obtain ⟨a, rel, _⟩ := plain_tracked run
    rw [reached]
    exact timeout_canvasses (rel.elections.node n member) member inside free
  | succ more ih =>
    obtain ⟨a, rel, _⟩ := plain_tracked run
    obtain ⟨middle, first, canvass, same, others⟩ :=
      timeout_canvasses (rel.elections.node n member) member inside free
    have term := canvass.term
    obtain ⟨c', rest, canvass', same', others'⟩ :=
      ih (run.onward first) (by simp [canvass.role]) (by omega) (by omega)
    refine ⟨c', first.trans rest, canvass', same.trans same', ?_⟩
    intro q other
    rw [others' q other, others q other]

theorem vote_answered (node : Member m p (c.core p)) (other : p ∈ m.members) (inside : n ∈ Q)
    (inside' : p ∈ Q) {args : RequestVoteArgs} (sent : ⟨n, p, args⟩ ∈ c.voteCalls)
    (newer : (c.core p).hard.currentTerm < args.term) :
    ∃ c', Onward m Q c c' ∧ SameLogs c c' ∧ (∀ q, q ≠ p → c'.server q = c.server q) ∧
      (c'.core p).role = .follower ∧ (c'.core p).hard.currentTerm = args.term ∧
      c'.voteCalls = c.voteCalls ∧
      ⟨p, n, args.term, ⟨args.term, (c.core p).logOk args⟩⟩ ∈ c'.voteAnswers := by
  obtain ⟨core', handled, role, term, same⟩ := node.running.handleRequestVote_newer newer ⟨0, 0⟩
  have acted : effect m c (.requestVote ⟨n, p, args⟩ ⟨0, 0⟩) =
      some (requestVoteEffect ⟨n, p, args⟩ ⟨0, 0⟩ (c.server p)) := if_pos sent
  simp only [requestVoteEffect, show (c.server p).core = c.core p from rfl, handled] at acted
  have onward : Onward m Q c (c.apply p _) :=
    onward_of_effect (.requestVote ⟨n, p, args⟩ ⟨0, 0⟩) rfl other ⟨inside, inside'⟩ acted
  refine ⟨_, onward, sameLogs_apply same, ?_, ?_, ?_, List.append_nil _, ?_⟩
  · intro q distinct
    exact Function.update_of_ne distinct _ _
  · rw [c.apply_core_self]
    exact role
  · rw [c.apply_core_self]
    exact term
  · exact List.mem_append_right _ List.mem_cons_self

theorem appendAsLeader_encodable {core : Core} {l : List LogEntry} (sound : core.Sound l)
    (leading : core.role = .leader) {command : Command}
    (encodes : Encodable ⟨core.hard.currentTerm, l.length + 1, command⟩) :
    ∃ core', appendAsLeader command core =
        (.ok ⟨core.hard.currentTerm, l.length + 1, command⟩, core') ∧
      core'.role = .leader ∧ core'.hard = core.hard ∧ core'.lastApplied = core.lastApplied ∧
      core'.snapshot = core.snapshot ∧
      core'.Sound (l ++ [⟨core.hard.currentTerm, l.length + 1, command⟩]) := by
  obtain ⟨bytes, encoded⟩ := encodes
  have longer := sound.withEntry rfl encoded
  rw [appendAsLeader_run sound leading command rfl, encoded]
  refine ⟨_, rfl, ?_⟩
  rw [advanceCommitIndex_eq]
  exact ⟨leading, rfl, rfl, rfl, longer.congr rfl rfl rfl⟩

namespace Canvass
variable {votes : Nat} {waiting : List Nat}

theorem answer_effect (canvass : Canvass c n t votes waiting) (waits : p ∈ waiting)
    (granted : ⟨p, n, t, ⟨t, true⟩⟩ ∈ c.voteAnswers) :
    effect m c (.voteAnswer ⟨p, n, t, ⟨t, true⟩⟩) =
      some (if (c.core n).quorum ≤ votes + 1 then winEffect (c.server n) else
        { server := { c.server n with
            campaign := some ⟨t, votes + 1, waiting.erase p⟩ } }) := by
  have candidate : (c.server n).core.role = .candidate := canvass.role
  have term : (c.server n).core.hard.currentTerm = t := canvass.term
  simp [effect, canvass.campaign, granted, waits, voteAnswerEffect, candidate, term, Campaign.heard]

theorem counts (canvass : Canvass c n t votes waiting) (member : n ∈ m.members) (inside : n ∈ Q)
    (inside' : p ∈ Q) (waits : p ∈ waiting) (granted : ⟨p, n, t, ⟨t, true⟩⟩ ∈ c.voteAnswers)
    (few : votes + 1 < (c.core n).quorum) :
    ∃ c', Onward m Q c c' ∧ Canvass c' n t (votes + 1) (waiting.erase p) ∧
      ∀ q, c'.core q = c.core q := by
  have acted := canvass.answer_effect (m := m) waits granted
  rw [if_neg (Nat.not_le.mpr few)] at acted
  have onward : Onward m Q c (c.apply n _) :=
    onward_of_effect (.voteAnswer ⟨p, n, t, ⟨t, true⟩⟩) rfl member ⟨inside', inside⟩ acted
  have cores (q : Nat) : (c.apply n { server := { c.server n with
      campaign := some ⟨t, votes + 1, waiting.erase p⟩ } }).core q = c.core q := by
    by_cases here : q = n
    · rw [here, c.apply_core_self]
    · exact c.apply_core_other _ here
  refine ⟨_, onward, ⟨?_, ?_, ?_, ?_⟩, cores⟩
  · rw [cores]
    exact canvass.role
  · rw [cores]
    exact canvass.term
  · simp [Cluster.apply]
  · intro p' waits'
    rw [cores]
    exact List.mem_append_left _ (canvass.asked p' (List.mem_of_mem_erase waits'))

theorem decides {a : Spec} (canvass : Canvass c n t votes waiting) (rel : Refines m c a)
    (member : n ∈ m.members) (inside : n ∈ Q) (inside' : p ∈ Q) (waits : p ∈ waiting)
    (granted : ⟨p, n, t, ⟨t, true⟩⟩ ∈ c.voteAnswers) (enough : (c.core n).quorum ≤ votes + 1)
    (encodes : Encodable ⟨t, (c.core n).lastLogIndex + 1, .noop⟩) :
    ∃ c', Onward m Q c c' ∧ (c'.core n).role = .leader ∧ (c'.core n).hard.currentTerm = t ∧
      (c'.core n).lastLogIndex = (c.core n).lastLogIndex + 1 ∧
      ∀ q, q ≠ n → c'.core q = c.core q := by
  have acted := canvass.answer_effect (m := m) waits granted
  rw [if_pos enough] at acted
  have onward : Onward m Q c (c.apply n _) :=
    onward_of_effect (.voteAnswer ⟨p, n, t, ⟨t, true⟩⟩) rfl member ⟨inside', inside⟩ acted
  have sound := (rel.node n member).sound
  have last := sound.holds.lastLogIndex
  have elected : (c.core n).becomeLeader.Sound (a.log n) := sound.congr rfl rfl rfl
  rw [last, ← canvass.term] at encodes
  obtain ⟨core', appended, role, hard, _, _, longer⟩ := appendAsLeader_encodable elected rfl encodes
  have core : (c.apply n (winEffect (c.server n))).core n = core' := by
    rw [c.apply_core_self]
    exact congrArg Prod.snd appended
  refine ⟨_, onward, ?_, ?_, ?_, ?_⟩
  · rw [core]
    exact role
  · rw [core, hard]
    exact canvass.term
  · rw [core, longer.holds.lastLogIndex, last, List.length_append, List.length_singleton]
  · intro q other
    exact c.apply_core_other _ other

/-- Asking enough nodes with older terms and no better logs wins. -/
theorem wins [LawfulBincode] (canvass : Canvass c n t votes waiting) (run : Reachable m Plain c)
    (member : n ∈ m.members) (inside : n ∈ Q) {voters : List Nat} (distinct : voters.Nodup)
    (willing : ∀ p ∈ voters, p ∈ waiting ∧ p ∈ Q ∧ p ∈ m.members ∧ p ≠ n ∧
      (c.core p).hard.currentTerm < t ∧
      (c.core p).logOk ⟨t, n, (c.core n).lastLogIndex, (c.core n).lastLogTerm⟩ = true)
    (few : votes < (c.core n).quorum) (enough : (c.core n).quorum ≤ votes + voters.length)
    (encodes : Encodable ⟨t, (c.core n).lastLogIndex + 1, .noop⟩) :
    ∃ c', Onward m Q c c' ∧ (c'.core n).role = .leader ∧ (c'.core n).hard.currentTerm = t ∧
      (c'.core n).lastLogIndex = (c.core n).lastLogIndex + 1 ∧
      ∀ q, (c'.core q).hard.currentTerm ≤ max (c.core q).hard.currentTerm t := by
  induction voters generalizing c votes waiting with
  | nil =>
    rw [List.length_nil] at enough
    omega
  | cons p rest ih =>
    obtain ⟨fresh, distinct⟩ := List.nodup_cons.mp distinct
    obtain ⟨waits, inside', other, apart, older, ok⟩ := willing p List.mem_cons_self
    obtain ⟨a, rel, _⟩ := plain_tracked run
    obtain ⟨c₁, first, same, servers, _, term, calls, granted⟩ := vote_answered
      (rel.elections.node p other) other inside inside' (canvass.asked p waits) older
    rw [ok] at granted
    have server : c₁.server n = c.server n := servers n (Ne.symm apart)
    have cores (q : Nat) (here : q ≠ p) : c₁.core q = c.core q := congrArg Server.core (servers q here)
    have core := cores n (Ne.symm apart)
    have canvass₁ : Canvass c₁ n t votes waiting := by
      refine ⟨?_, ?_, ?_, ?_⟩
      · rw [core]
        exact canvass.role
      · rw [core]
        exact canvass.term
      · rw [server]
        exact canvass.campaign
      · rw [core, calls]
        exact canvass.asked
    have terms₁ (q : Nat) : (c₁.core q).hard.currentTerm ≤ max (c.core q).hard.currentTerm t := by
      by_cases here : q = p
      · rw [here, term]
        exact Nat.le_max_right _ _
      · rw [cores q here]
        exact Nat.le_max_left _ _
    have run₁ := run.onward first
    by_cases decisive : (c.core n).quorum ≤ votes + 1
    · obtain ⟨a₁, rel₁, _⟩ := plain_tracked run₁
      rw [← core] at decisive encodes
      obtain ⟨c₂, second, role, term', last, others⟩ :=
        canvass₁.decides rel₁ member inside inside' waits granted decisive encodes
      refine ⟨c₂, first.trans second, role, term', by rw [last, core], ?_⟩
      intro q
      by_cases here : q = n
      · rw [here, term']
        exact Nat.le_max_right _ _
      · rw [others q here]
        exact terms₁ q
    · have few' : votes + 1 < (c₁.core n).quorum := by
        rw [core]
        omega
      obtain ⟨c₂, second, canvass₂, cores₂⟩ :=
        canvass₁.counts member inside inside' waits granted few'
      have willing₂ : ∀ v ∈ rest, v ∈ waiting.erase p ∧ v ∈ Q ∧ v ∈ m.members ∧ v ≠ n ∧
          (c₂.core v).hard.currentTerm < t ∧ (c₂.core v).logOk
            ⟨t, n, (c₂.core n).lastLogIndex, (c₂.core n).lastLogTerm⟩ = true := by
        intro v among
        have unlike : v ≠ p := fun here => fresh (here ▸ among)
        obtain ⟨waits, elsewhere⟩ := willing v (List.mem_cons_of_mem _ among)
        rw [cores₂ v, cores₂ n, cores v unlike, core]
        exact ⟨(List.mem_erase_of_ne unlike).mpr waits, elsewhere⟩
      rw [List.length_cons] at enough
      rw [← core, ← cores₂ n] at enough encodes
      obtain ⟨c₃, third, role, term', last, terms⟩ := ih canvass₂ (run₁.onward second) distinct
        willing₂ (by rw [cores₂]; exact few') (by omega) encodes
      refine ⟨c₃, (first.trans second).trans third, role, term', by rw [last, cores₂, core], ?_⟩
      intro q
      have later := terms q
      rw [cores₂ q] at later
      have earlier := terms₁ q
      omega

end Canvass

theorem request_answered (member : n ∈ m.members) (other : p ∈ m.members) (inside : n ∈ Q)
    (inside' : p ∈ Q) (apart : p ≠ n) (leads : (c.core n).role = .leader)
    (listed : p ∈ (c.core n).peers) {args : AppendEntriesArgs} {reply : AppendEntriesReply}
    {core : Core} (built : args = (c.core n).buildAppendEntries p)
    (handled : handleAppendEntries ⟨0, 0⟩ args (c.core p) = (.ok reply, core)) :
    ∃ c', Onward m Q c c' ∧ c'.server n = c.server n ∧ c'.core p = core ∧
      (∀ q, q ≠ p → c'.core q = c.core q) ∧
      ⟨p, n, args.term, args.lastSent, reply⟩ ∈ c'.appendAnswers := by
  subst built
  let call : AppendCall := ⟨n, p, (c.core n).buildAppendEntries p⟩
  let c₁ := c.apply n { server := c.server n, appendCalls := [call] }
  have first : Onward m Q c c₁ :=
    onward_of_effect (.build n p) rfl member ⟨inside, inside', leads⟩ (if_pos listed)
  have server₁ : c₁.server = c.server := Function.update_eq_self n c.server
  have sent : call ∈ c₁.appendCalls := List.mem_append_right _ List.mem_cons_self
  have acted : effect m c₁ (.appendEntries call ⟨0, 0⟩) =
      some (appendEntriesEffect call ⟨0, 0⟩ (c₁.server p)) := if_pos sent
  simp only [appendEntriesEffect, server₁, show (c.server p).core = c.core p from rfl, call, handled]
    at acted
  have second : Onward m Q c₁ (c₁.apply p _) :=
    onward_of_effect (.appendEntries call ⟨0, 0⟩) rfl other ⟨inside, inside'⟩ acted
  refine ⟨_, first.trans second, ?_, c₁.apply_core_self _ _, ?_, ?_⟩
  · exact (Function.update_of_ne (Ne.symm apart) _ _).trans (congrFun server₁ n)
  · intro q elsewhere
    rw [c₁.apply_core_other _ elsewhere]
    exact congrArg Server.core (congrFun server₁ q)
  · exact List.mem_append_right _ List.mem_cons_self

/-- A leader that asks a node with a newer term steps down. -/
theorem leader_steps_down {a : Spec} (rel : Refines m c a) (member : n ∈ m.members)
    (other : p ∈ m.members) (inside : n ∈ Q) (inside' : p ∈ Q) (leads : (c.core n).role = .leader)
    (newer : (c.core n).hard.currentTerm < (c.core p).hard.currentTerm) :
    ∃ c', Onward m Q c c' ∧ SameLogs c c' ∧ (c'.core n).role = .follower ∧
      (c'.core n).hard.currentTerm = (c.core p).hard.currentTerm ∧
      ∀ q, q ≠ n → c'.core q = c.core q := by
  have node := rel.elections.node n member
  have apart : p ≠ n := by
    rintro rfl
    omega
  have listed : p ∈ (c.core n).peers := node.peers ▸ Membership.listed member other apart
  have handled : handleAppendEntries ⟨0, 0⟩ ((c.core n).buildAppendEntries p) (c.core p) =
      (.ok ((c.core p).reject 0), c.core p) := by
    rw [(rel.elections.node p other).running.handleAppendEntries]
    exact if_pos newer
  obtain ⟨c₁, first, server, core, others, sent⟩ :=
    request_answered member other inside inside' apart leads listed rfl handled
  have same (q : Nat) : c₁.core q = c.core q := by
    by_cases here : q = p
    · rw [here, core]
    · exact others q here
  have acted : effect m c₁ (.appendAnswer _) = some (appendAnswerEffect _ (c₁.server n)) := if_pos sent
  have later : (c.server n).core.hard.currentTerm < ((c.core p).reject 0).term := newer
  simp only [appendAnswerEffect, server, if_pos later, node.running.becomeFollower later] at acted
  have second : Onward m Q c₁ (c₁.apply n _) :=
    onward_of_effect (.appendAnswer _) rfl member ⟨inside', inside⟩ acted
  refine ⟨_, first.trans second, ?_, ?_, ?_, ?_⟩
  · intro q
    rw [← same q]
    refine sameLogs_apply ?_ q
    rw [same n]
    exact observe_logPart _ _ _
  · rw [c₁.apply_core_self]
    simp only [RaftCore.observe, if_pos later]
  · rw [c₁.apply_core_self]
    exact (observe_term _).trans (Nat.max_eq_right newer.le)
  · intro q here
    rw [c₁.apply_core_other _ here, same q]

theorem candidate_ousts [LawfulBincode] (run : Reachable m Plain c) (member : n ∈ m.members)
    (other : p ∈ m.members) (inside : n ∈ Q) (inside' : p ∈ Q) (apart : p ≠ n)
    (free : (c.core p).role ≠ .leader) (terms : ∀ q ∈ Q, (c.core q).hard.currentTerm ≤ t) :
    ∃ c', Onward m Q c c' ∧ SameLogs c c' ∧ (c'.core n).role ≠ .leader ∧
      ∀ q ∈ Q, (c'.core q).hard.currentTerm ≤ t + 1 := by
  obtain ⟨c₁, first, canvass, same, others⟩ :=
    canvasses run other inside' free (Nat.lt_succ_of_le (terms p inside'))
  obtain ⟨a, rel, _⟩ := plain_tracked (run.onward first)
  have asked := canvass.asked n (Membership.listed other member (Ne.symm apart))
  have newer : (c₁.core n).hard.currentTerm < t + 1 := by
    rw [others n (Ne.symm apart)]
    exact Nat.lt_succ_of_le (terms n inside)
  obtain ⟨c₂, second, same', servers, role, term, _⟩ :=
    vote_answered (rel.elections.node n member) member inside' inside asked newer
  refine ⟨c₂, first.trans second, same.trans same', by simp [role], ?_⟩
  intro q among
  by_cases here : q = n
  · rw [here, term]
  · rw [Cluster.core, servers q here]
    by_cases there : q = p
    · rw [there]
      exact canvass.term.le
    · have before : (c₁.server q).core = c.core q := others q there
      have bound := terms q among
      rw [before]
      omega

/-- A node that leads can be made to follow by any other of the quorum. -/
theorem steps_down [LawfulBincode] (run : Reachable m Plain c) (member : n ∈ m.members)
    (other : p ∈ m.members) (inside : n ∈ Q) (inside' : p ∈ Q) (apart : p ≠ n)
    (terms : ∀ q ∈ Q, (c.core q).hard.currentTerm ≤ t) :
    ∃ c', Onward m Q c c' ∧ SameLogs c c' ∧ (c'.core n).role ≠ .leader ∧
      ∀ q ∈ Q, (c'.core q).hard.currentTerm ≤ t + 1 := by
  by_cases free : (c.core p).role = .leader
  · obtain ⟨a, rel, _⟩ := plain_tracked run
    by_cases leads : (c.core n).role = .leader
    · rcases Nat.lt_trichotomy (c.core n).hard.currentTerm (c.core p).hard.currentTerm with
        older | level | newer
      · obtain ⟨c₁, first, same, role, term, others⟩ :=
          leader_steps_down rel member other inside inside' leads older
        refine ⟨c₁, first, same, by simp [role], ?_⟩
        intro q among
        have bound := terms q among
        have bound' := terms p inside'
        by_cases here : q = n
        · rw [here, term]
          omega
        · rw [others q here]
          omega
      · obtain ⟨_, won, rfl, at_term⟩ := rel.elections.leads n member leads
        obtain ⟨_, won', rfl, at_term'⟩ := rel.elections.leads p other free
        have one := rel.elections.unique won won' (by rw [at_term, at_term', level])
        exact absurd one (Ne.symm apart)
      · obtain ⟨c₁, first, same, role, term, others⟩ :=
          leader_steps_down rel other member inside' inside free newer
        have terms₁ : ∀ q ∈ Q, (c₁.core q).hard.currentTerm ≤ t := by
          intro q among
          by_cases here : q = p
          · rw [here, term]
            exact terms n inside
          · rw [others q here]
            exact terms q among
        obtain ⟨c₂, second, same', done⟩ := candidate_ousts (run.onward first) member other inside
          inside' apart (by simp [role]) terms₁
        exact ⟨c₂, first.trans second, same.trans same', done⟩
    · exact ⟨c, .refl, fun _ => rfl, leads, fun q among => Nat.le_succ_of_le (terms q among)⟩
  · exact candidate_ousts run member other inside inside' apart free terms

/-- The nodes of a quorum can elect one of them, and it has appended to the log it had. -/
theorem quorum_elects [LawfulBincode] (run : Reachable m Plain c) (listed : ∀ q ∈ Q, q ∈ m.members)
    (majority : m.members.length < 2 * Q.card) (several : 1 < Q.card)
    {k : Nat} (terms : ∀ q ∈ Q, (c.core q).hard.currentTerm ≤ t)
    (lengths : ∀ q ∈ Q, (c.core q).lastLogIndex ≤ k)
    (encodes : ∀ i ≤ k + 1, Encodable ⟨t + 2, i, .noop⟩) :
    ∃ n ∈ Q, ∃ c', Onward m Q c c' ∧ (c'.core n).role = .leader ∧
      (c'.core n).hard.currentTerm = t + 2 ∧ (c'.core n).lastLogIndex ≤ k + 1 ∧
      ∀ q ∈ Q, (c'.core q).hard.currentTerm ≤ t + 2 := by
  obtain ⟨n, inside, best⟩ := Q.exists_max_image
    (fun q => toLex ((c.core q).lastLogTerm, (c.core q).lastLogIndex))
    (Finset.card_pos.mp (by omega))
  have member := listed n inside
  obtain ⟨p, inside', apart⟩ := Q.exists_mem_ne several n
  obtain ⟨c₁, first, same₁, free, terms₁⟩ :=
    steps_down run member (listed p inside') inside inside' apart terms
  have run₁ := run.onward first
  obtain ⟨c₂, second, canvass, same₂, others⟩ :=
    canvasses run₁ member inside free (Nat.lt_succ_of_le (terms₁ n inside))
  have run₂ := run₁.onward second
  obtain ⟨a, rel, _⟩ := plain_tracked run₂
  have same := same₁.trans same₂
  obtain ⟨index, term⟩ := last_of_logPart (same n)
  have quorum : (c₂.core n).quorum = m.members.length / 2 + 1 := by
    rw [RaftCore.quorum, (rel.elections.node n member).clusterSize]
  have fits : Q.card ≤ m.members.length := by
    have distinct : Q ⊆ m.members.toFinset := fun q among => List.mem_toFinset.mpr (listed q among)
    exact (Finset.card_le_card distinct).trans (List.toFinset_card_le _)
  have size : (Q.erase n).toList.length = Q.card - 1 := by
    rw [Finset.length_toList, Finset.card_erase_of_mem inside]
  have willing : ∀ q ∈ (Q.erase n).toList, q ∈ (m.config n).peerIds ∧ q ∈ Q ∧ q ∈ m.members ∧ q ≠ n ∧
      (c₂.core q).hard.currentTerm < t + 1 + 1 ∧ (c₂.core q).logOk
        ⟨t + 1 + 1, n, (c₂.core n).lastLogIndex, (c₂.core n).lastLogTerm⟩ = true := by
    intro q among
    obtain ⟨distinct, among⟩ := Finset.mem_erase.mp (Finset.mem_toList.mp among)
    refine ⟨Membership.listed member (listed q among) distinct, among, listed q among, distinct, ?_, ?_⟩
    · rw [others q distinct]
      exact Nat.lt_succ_of_le (terms₁ q among)
    · obtain ⟨index', term'⟩ := last_of_logPart (same q)
      have order := Prod.Lex.toLex_le_toLex.mp (best q among)
      simpa [logOk, index, term, index', term'] using order
  have bound := lengths n inside
  obtain ⟨c₃, third, role, reached, last, terms₃⟩ := canvass.wins run₂ member inside
    (Finset.nodup_toList _) willing (by omega) (by omega) (encodes _ (by omega))
  refine ⟨n, inside, c₃, (first.trans second).trans third, role, reached, by omega, ?_⟩
  intro q among
  have later := terms₃ q
  by_cases here : q = n
  · rw [here]
    exact reached.le
  · rw [others q here] at later
    have before := terms₁ q among
    omega

end Runs
end WalKv
