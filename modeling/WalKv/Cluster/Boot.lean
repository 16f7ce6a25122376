import WalKv.Cluster.Model
import WalKv.Raft.Running

/-! Memberships and initial states exist: any distinct non-zero ids make a
membership with the default configuration, and a validated membership boots
whenever its timer ranges differ by a millisecond. -/
namespace WalKv

theorem Config.not_repeated_of_nodup {ids : List Nat} (distinct : ids.Nodup) :
    anyRepeated ids = false := by
  induction ids with
  | nil => rfl
  | cons a rest ih =>
    cases rest with
    | nil => rfl
    | cons b rest =>
      have apart := (List.nodup_cons.mp distinct).1
      simp only [anyRepeated, ih (List.nodup_cons.mp distinct).2, Bool.or_false,
        beq_eq_false_iff_ne]
      rintro rfl
      exact apart (by simp)

namespace Membership

/-- The configuration of node `n` among the given ids, with the default timing. -/
def configOf (ids : List Nat) (n : Nat) : Config :=
  (Config.new n).withPeers ((ids.erase n).map fun id => ⟨id, ""⟩)

theorem configOf_peerIds (ids : List Nat) (n : Nat) :
    (configOf ids n).peerIds = ids.erase n := by
  simp [configOf, Config.withPeers, Config.peerIds, Function.comp_def]

theorem configOf_shared {ids : List Nat} {n : Nat} (member : n ∈ ids) :
    ((configOf ids n).peerIds ++ [n]).Perm ids := by
  rw [configOf_peerIds]
  exact (List.perm_append_singleton _ _).trans (List.perm_cons_erase member).symm

theorem configOf_valid {ids : List Nat} (distinct : ids.Nodup) {n : Nat} (member : n ∈ ids)
    (positive : n ≠ 0) : (configOf ids n).validate = .ok () := by
  have sorted : (((configOf ids n).peerIds ++ [n]).insertionSort (· ≤ ·)).Nodup := by
    rw [(List.perm_insertionSort _ _).nodup_iff, (configOf_shared member).nodup_iff]
    exact distinct
  have id : (configOf ids n).id = n := rfl
  unfold Config.validate
  rw [id, if_neg positive, Config.not_repeated_of_nodup sorted]
  rfl

def ofIds (ids : List Nat) (distinct : ids.Nodup) (positive : 0 ∉ ids) : Membership where
  members := ids
  config := configOf ids
  configured _ _ := rfl
  valid _ member := configOf_valid distinct member fun zero => positive (zero ▸ member)
  shared _ := configOf_shared

end Membership

/-- Three nodes with the default configuration. -/
def trio : Membership := .ofIds [1, 2, 3] (by decide) (by decide)

theorem trio_timed : ∀ n ∈ trio.members, asMillis (trio.config n).electionTimeout.start <
    asMillis (trio.config n).electionTimeout.stop := by
  decide

variable [Bincode] (m : Membership) (clock : Clock)

/-- Node `n` of the membership, started on an empty directory. -/
def bootCore (n : Nat) : Core :=
  (RaftCore.assemble clock (m.config n) HardFile.absent default FlatLog.empty []).armed clock

/-- The cluster in which every node has just been started. -/
def boot : Cluster where
  server n := Server.fresh (bootCore m clock n)
  voteCalls := []
  voteAnswers := []
  appendCalls := []
  appendAnswers := []
  trace := []

theorem boot_initial (timed : ∀ n ∈ m.members,
    asMillis (m.config n).electionTimeout.start < asMillis (m.config n).electionTimeout.stop) :
    Initial m (boot m clock) where
  server n member := by
    exact ⟨clock, bootCore m clock n, RaftCore.restore_eq rfl rfl (timed n member), rfl⟩
  voteCalls := rfl
  voteAnswers := rfl
  appendCalls := rfl
  appendAnswers := rfl
  trace := rfl

theorem boot_shows {guard : Cluster → Action → Prop} [∀ c a, Decidable (guard c a)]
    {actions : List Action} {p : Cluster → Bool} (timed : ∀ n ∈ m.members,
      asMillis (m.config n).electionTimeout.start < asMillis (m.config n).electionTimeout.stop)
    (checked : (Transition.execute (step m) guard (boot m clock) actions).any p = true) :
    ∃ c, Reachable m guard c ∧ p c = true := by
  obtain ⟨c, run, holds⟩ := Transition.execute_shows checked
  exact ⟨c, ⟨boot m clock, boot_initial m clock timed, run⟩, holds⟩

end WalKv
