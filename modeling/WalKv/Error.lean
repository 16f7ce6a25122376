import Mathlib.Algebra.Group.Nat.Defs
import WalKv.Fallible

/-! The crate's error type, and the ways a call can end without a value. -/
namespace WalKv

abbrev Bytes := List UInt8

inductive Error where
  | io (msg : String)
  | encode (msg : String)
  | corruption (msg : String)
  | wal (msg : String)
  | raft (msg : String)
  | config (msg : String)
  | transport (msg : String)
  deriving DecidableEq, Repr

inductive Stop where
  | err (e : Error)
  | panic (msg : String)
  /-- The process ends here. -/
  | crashed
  deriving DecidableEq, Repr

/-- Why a call stops that goes on to one more thing, whose own errors do not matter. -/
def Stop.unlessCrashed (stop : Stop) : Except Stop Unit → Stop
  | .error .crashed => .crashed
  | .error (.err _) | .error (.panic _) | .ok () => stop

theorem Stop.unlessCrashed_cases (stop : Stop) (ended : Except Stop Unit) :
    stop.unlessCrashed ended = stop ∨ stop.unlessCrashed ended = .crashed := by
  rcases ended with (_ | _ | _) | ⟨⟩
  · exact .inl rfl
  · exact .inl rfl
  · exact .inr rfl
  · exact .inl rfl

/-- `Duration::as_millis` narrowed with `as u64`. Durations and instants are
nanoseconds. -/
def asMillis (d : Nat) : Nat := d / 1000000 % 2 ^ 64

def fromMillis (ms : Nat) : Nat := 1000000 * ms

/-- What one call reads from its surroundings: the clock, and the random word
behind `thread_rng`. -/
structure Clock where
  now : Nat
  draw : Nat
  deriving DecidableEq, Repr

/-- `gen_range(lo..hi)`, which panics exactly on an empty range. -/
def genRange (lo hi : Nat) (clock : Clock) : Option Nat :=
  if lo < hi then some (lo + clock.draw % (hi - lo)) else none

end WalKv
