import WalKv.Error
import Mathlib.Data.List.Sort

/-! Node configuration and the checks that a configuration passes before a node
starts. Node ids, terms and log indices, `u64` in the source, are plain naturals.
The listen address and the data directory are not read by anything modelled. -/
namespace WalKv

structure Peer where
  id : Nat
  addr : String
  deriving DecidableEq, Repr

/-- `Range<Duration>`. -/
structure TimeoutRange where
  start : Nat
  stop : Nat
  deriving DecidableEq, Repr

structure Config where
  id : Nat
  peers : List Peer
  heartbeatInterval : Nat
  electionTimeout : TimeoutRange
  segmentMaxBytes : Nat
  snapshotThreshold : Nat
  deriving DecidableEq, Repr

namespace Config

/-- The single-node defaults. -/
def new (id : Nat) : Config where
  id := id
  peers := []
  heartbeatInterval := fromMillis 50
  electionTimeout := ⟨fromMillis 150, fromMillis 300⟩
  segmentMaxBytes := 64 * 1024 * 1024
  snapshotThreshold := 10000

def withPeers (cfg : Config) (peers : List Peer) : Config := { cfg with peers }

def peerIds (cfg : Config) : List Nat := cfg.peers.map Peer.id

def clusterSize (cfg : Config) : Nat := cfg.peers.length + 1

def quorum (cfg : Config) : Nat := cfg.clusterSize / 2 + 1

/-- `ids.windows(2).any(|w| w[0] == w[1])`. -/
def anyRepeated : List Nat → Bool
  | a :: b :: rest => a == b || anyRepeated (b :: rest)
  | _ => false

def validate (cfg : Config) : Except Error Unit :=
  if cfg.id = 0 then
    .error (.config "node id must be non-zero")
  else if cfg.electionTimeout.start ≤ cfg.heartbeatInterval then
    .error (.config "election timeout must be larger than the heartbeat interval")
  else if cfg.electionTimeout.start ≥ cfg.electionTimeout.stop then
    .error (.config "election timeout range must be non-empty (start < end)")
  else if anyRepeated ((cfg.peerIds ++ [cfg.id]).insertionSort (· ≤ ·)) then
    .error (.config "duplicate node id in cluster")
  else .ok ()

theorem nodup_of_not_repeated {ids : List Nat} (sorted : ids.Pairwise (· ≤ ·))
    (distinct : anyRepeated ids = false) : ids.Nodup := by
  induction ids with
  | nil => exact List.nodup_nil
  | cons a rest ih =>
    cases rest with
    | nil => exact List.nodup_singleton a
    | cons b rest =>
      simp only [anyRepeated, Bool.or_eq_false_iff, beq_eq_false_iff_ne] at distinct
      have tail := ih sorted.of_cons distinct.2
      refine List.nodup_cons.mpr ⟨?_, tail⟩
      intro member
      have above : b ≤ a := by
        rcases List.mem_cons.mp member with same | later
        · omega
        · exact (List.pairwise_cons.mp sorted.of_cons).1 a later
      have below := (List.pairwise_cons.mp sorted).1 b (by simp)
      exact distinct.1 (Nat.le_antisymm below above)

/-- An accepted configuration names every node once. -/
theorem validate_nodup {cfg : Config} (valid : cfg.validate = .ok ()) :
    (cfg.peerIds ++ [cfg.id]).Nodup := by
  unfold validate at valid
  split_ifs at valid with zero timeout range repeated
  have sorted := List.pairwise_insertionSort (· ≤ ·) (cfg.peerIds ++ [cfg.id])
  have distinct := nodup_of_not_repeated sorted (by simpa using repeated)
  exact (List.perm_insertionSort _ _).nodup_iff.mp distinct

theorem validate_range {cfg : Config} (valid : cfg.validate = .ok ()) :
    cfg.electionTimeout.start < cfg.electionTimeout.stop := by
  unfold validate at valid
  split_ifs at valid with zero timeout range repeated
  exact Nat.lt_of_not_ge range

end Config
end WalKv
