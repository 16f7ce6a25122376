import Mathlib.Algebra.Group.Nat.Defs
import Mathlib.Data.Nat.Basic

/-! Fixed-width little-endian numbers as byte lists. -/
namespace LittleEndian

def encode : Nat → Nat → List UInt8
  | 0, _ => []
  | width + 1, value => (value % 256).toUInt8 :: encode width (value / 256)

def decode : List UInt8 → Nat
  | [] => 0
  | byte :: rest => byte.toNat + 256 * decode rest

@[simp] theorem encode_length (width value : Nat) : (encode width value).length = width := by
  induction width generalizing value with
  | zero => rfl
  | succ width ih => simp only [encode, List.length_cons, ih]

theorem decode_encode {width value : Nat} (fits : value < 256 ^ width) :
    decode (encode width value) = value := by
  induction width generalizing value with
  | zero =>
    rw [Nat.pow_zero] at fits
    simp only [encode, decode]
    omega
  | succ width ih =>
    have tail : value / 256 < 256 ^ width := by
      apply (Nat.div_lt_iff_lt_mul (by decide)).mpr
      simpa only [Nat.pow_succ] using fits
    have head : (value % 256).toUInt8.toNat = value % 256 :=
      UInt8.toNat_ofNat_of_lt' (Nat.mod_lt _ (by decide))
    simp only [encode, decode, head, ih tail]
    exact Nat.mod_add_div value 256

theorem encode_decode (bytes : List UInt8) : encode bytes.length (decode bytes) = bytes := by
  induction bytes with
  | nil => rfl
  | cons byte rest ih =>
    have small := byte.toNat_lt
    have head : (byte.toNat + 256 * decode rest) % 256 = byte.toNat := by omega
    have tail : (byte.toNat + 256 * decode rest) / 256 = decode rest := by omega
    rw [List.length_cons, decode, encode, head, tail, ih]
    exact congrArg (· :: rest) (UInt8.ofNat_toNat)

/-- Split off exactly `n` bytes. -/
def split (n : Nat) (bytes : List UInt8) : Option (List UInt8 × List UInt8) :=
  if n ≤ bytes.length then some (bytes.take n, bytes.drop n) else none

theorem split_append (first rest : List UInt8) :
    split first.length (first ++ rest) = some (first, rest) := by
  simp [split]

/-- Split off a number of the given width. -/
def splitNumber (width : Nat) (bytes : List UInt8) : Option (Nat × List UInt8) :=
  (split width bytes).map fun (number, rest) => (decode number, rest)

theorem splitNumber_append {width value : Nat} (fits : value < 256 ^ width) (rest : List UInt8) :
    splitNumber width (encode width value ++ rest) = some (value, rest) := by
  have found := split_append (encode width value) rest
  rw [encode_length] at found
  simp only [splitNumber, found, Option.map_some, decode_encode fits]

end LittleEndian
