import WalKv.Crc32
import Mathlib.Tactic.Common
import Mathlib.Tactic.SplitIfs

/-! Which changes a CRC-32 cannot miss. The register takes in one bit of the message after the
other; the step is linear and loses nothing, so two messages that differ have different checksums
as long as they differ within 32 consecutive bits only. -/
namespace Crc32

/-- Bit `i` of the register. -/
def bit (crc : UInt32) (i : Nat) : Bool := crc.toBitVec.getLsbD i

theorem ext_bit {a b : UInt32} (same : ∀ i < 32, bit a i = bit b i) : a = b := by
  apply UInt32.toBitVec_inj.mp
  exact BitVec.eq_of_getLsbD_eq same

@[simp] theorem bit_xor (a b : UInt32) (i : Nat) : bit (a ^^^ b) i = (bit a i ^^ bit b i) := by
  simp [bit]

@[simp] theorem bit_zero (i : Nat) : bit 0 i = false := by
  simp [bit]

theorem bit_high (crc : UInt32) {i : Nat} (beyond : 32 ≤ i) : bit crc i = false :=
  BitVec.getLsbD_of_ge _ _ beyond

theorem low_bit (crc : UInt32) : crc &&& 1 = 1 ↔ bit crc 0 = true := by
  rw [← UInt32.toBitVec_inj, bit]
  constructor
  · intro same
    simpa using congrArg (·.getLsbD 0) same
  · intro low
    apply BitVec.eq_of_getLsbD_eq
    intro i inside
    cases i with
    | zero => simpa using low
    | succ i => simp

theorem bit_shift (crc : UInt32) (i : Nat) :
    bit (shift crc) i = (bit crc (i + 1) ^^ (bit crc 0 && bit 0xEDB88320 i)) := by
  have down : bit (crc >>> 1) i = bit crc (i + 1) := by
    simp [bit, Nat.add_comm]
  unfold shift
  split_ifs with low
  · rw [low_bit] at low
    rw [bit_xor, low, down, Bool.true_and]
  · rw [low_bit, Bool.not_eq_true] at low
    rw [low, down, Bool.false_and, Bool.xor_false]

theorem shift_xor (a b : UInt32) : shift (a ^^^ b) = shift a ^^^ shift b := by
  apply ext_bit
  intro i _
  simp only [bit_shift, bit_xor]
  cases bit a 0 <;> cases bit b 0 <;> cases bit a (i + 1) <;> cases bit b (i + 1) <;>
    cases bit 0xEDB88320 i <;> rfl

/-- The top bit of the polynomial shows in the register whether a bit was shifted out. -/
theorem shift_eq_zero {crc : UInt32} (zero : shift crc = 0) : crc = 0 := by
  have clear (i : Nat) : (bit crc (i + 1) ^^ (bit crc 0 && bit 0xEDB88320 i)) = false := by
    rw [← bit_shift, zero, bit_zero]
  have top : bit 0xEDB88320 31 = true := by decide
  have low : bit crc 0 = false := by
    have last := clear 31
    rwa [bit_high crc (Nat.le_refl 32), top, Bool.and_true, Bool.false_xor] at last
  apply ext_bit
  intro i _
  rw [bit_zero]
  cases i with
  | zero => exact low
  | succ i =>
    have here := clear i
    rwa [low, Bool.false_and, Bool.xor_false] at here

theorem shift_injective {a b : UInt32} (same : shift a = shift b) : a = b := by
  have zero : shift (a ^^^ b) = 0 := by rw [shift_xor, same, UInt32.xor_self]
  exact UInt32.xor_eq_zero_iff.mp (shift_eq_zero zero)

theorem shift_of_low {a b : UInt32} (low : bit a 0 = false)
    (moved : ∀ i < 32, bit a (i + 1) = bit b i) : shift a = b := by
  apply ext_bit
  intro i inside
  rw [bit_shift, low, Bool.false_and, Bool.xor_false, moved i inside]

/-- The register that holds the given bits from its low end on. -/
def word : List Bool → UInt32
  | [] => 0
  | b :: rest => (word rest <<< 1) ^^^ if b then 1 else 0

theorem bit_word (bits : List Bool) (i : Nat) (inside : i < 32) :
    bit (word bits) i = bits.getD i false := by
  induction bits generalizing i with
  | nil => simp [word]
  | cons b rest ih =>
    have up : bit (word rest <<< 1) i = if i = 0 then false else bit (word rest) (i - 1) := by
      cases i with
      | zero => simp [bit]
      | succ i => simp [bit, inside, BitVec.getLsbD_eq_getElem (Nat.lt_of_succ_lt inside)]
    have one : bit (if b then 1 else 0) i = if i = 0 then b else false := by
      cases i <;> cases b <;> simp [bit]
    rw [word, bit_xor, up, one]
    cases i with
    | zero => simp
    | succ i => simpa using ih i (by omega)

/-- The register takes in one bit. -/
def step (crc : UInt32) (b : Bool) : UInt32 := shift (crc ^^^ if b then 1 else 0)

theorem step_injective {a c : UInt32} {b : Bool} (same : step a b = step c b) : a = c :=
  (UInt32.xor_left_inj _).mp (shift_injective same)

theorem foldl_step_injective {a c : UInt32} (bits : List Bool)
    (same : bits.foldl step a = bits.foldl step c) : a = c := by
  induction bits generalizing a c with
  | nil => exact same
  | cons b rest ih => exact step_injective (ih same)

theorem repeat_succ (f : UInt32 → UInt32) (n : Nat) (a : UInt32) :
    Nat.repeat f (n + 1) a = Nat.repeat f n (f a) := by
  induction n with
  | zero => rfl
  | succ n ih => exact congrArg f ih

theorem repeat_shift_injective {n : Nat} {a b : UInt32}
    (same : Nat.repeat shift n a = Nat.repeat shift n b) : a = b := by
  induction n with
  | zero => exact same
  | succ n ih => exact ih (shift_injective same)

/-- Up to 32 bits may be put into the register at once and then shifted through it: the bits that
wait at the low end are moved down before they are taken in. -/
theorem foldl_step_word (crc : UInt32) {bits : List Bool} (short : bits.length ≤ 32) :
    bits.foldl step crc = Nat.repeat shift bits.length (crc ^^^ word bits) := by
  induction bits generalizing crc with
  | nil => simp [word, Nat.repeat]
  | cons b rest ih =>
    have waits : shift (word rest <<< 1) = word rest := by
      apply shift_of_low
      · simp [bit]
      · intro i inside
        rcases Nat.lt_or_ge i 31 with low | top
        · simp [bit, Nat.succ_lt_succ low, BitVec.getLsbD_eq_getElem inside]
        · simp only [List.length_cons] at short
          have none : rest[i]? = none := List.getElem?_eq_none (by omega)
          rw [bit_high _ (by omega), bit_word _ _ inside, List.getD_eq_getElem?_getD, none]
          rfl
    have first : shift (crc ^^^ word (b :: rest)) = step crc b ^^^ word rest := by
      rw [word, UInt32.xor_comm (word rest <<< 1), ← UInt32.xor_assoc, shift_xor, waits]
      rfl
    rw [List.foldl_cons, ih _ (by simp only [List.length_cons] at short; omega), List.length_cons,
      repeat_succ, first]

theorem word_injective {u v : List Bool} (same : word u = word v) (length : u.length = v.length)
    (short : u.length ≤ 32) : u = v := by
  apply List.ext_getElem length
  intro i left right
  have here := bit_word u i (by omega)
  rw [same, bit_word v i (by omega)] at here
  simpa [left, right] using here.symm

/-- Different bits within 32 consecutive ones leave different registers. -/
theorem burst_detected (crc : UInt32) {before u v after : List Bool} (length : u.length = v.length)
    (short : u.length ≤ 32) (differ : u ≠ v) :
    (before ++ u ++ after).foldl step crc ≠ (before ++ v ++ after).foldl step crc := by
  intro same
  rw [List.foldl_append, List.foldl_append, List.foldl_append, List.foldl_append] at same
  have inside := foldl_step_injective after same
  have left := foldl_step_word (before.foldl step crc) short
  have right : v.foldl step (before.foldl step crc) = _ :=
    foldl_step_word (before.foldl step crc) (by omega)
  rw [left, right, length] at inside
  exact differ (word_injective ((UInt32.xor_right_inj _).mp (repeat_shift_injective inside))
    length short)

/-- The bits of a byte in the order in which they are taken in. -/
def byteBits (byte : UInt8) : List Bool := (List.range 8).map byte.toBitVec.getLsbD

/-- The bits of a message. -/
def bits (bytes : List UInt8) : List Bool := bytes.flatMap byteBits

@[simp] theorem byteBits_length (byte : UInt8) : (byteBits byte).length = 8 := by simp [byteBits]

theorem word_byteBits (byte : UInt8) : word (byteBits byte) = byte.toUInt32 := by
  apply ext_bit
  intro i inside
  rw [bit_word _ _ inside, List.getD_eq_getElem?_getD]
  rcases Nat.lt_or_ge i 8 with low | high
  · simp [byteBits, bit, low, inside]
  · have none : (byteBits byte)[i]? = none := List.getElem?_eq_none (by simpa using high)
    rw [none]
    simp [bit, inside, high]

theorem update_eq (crc : UInt32) (byte : UInt8) : update crc byte = (byteBits byte).foldl step crc := by
  rw [foldl_step_word crc (by simp), byteBits_length, word_byteBits]
  rfl

theorem foldl_update (crc : UInt32) (bytes : List UInt8) :
    bytes.foldl update crc = (bits bytes).foldl step crc := by
  induction bytes generalizing crc with
  | nil => rfl
  | cons byte rest ih =>
    rw [List.foldl_cons, ih, update_eq, bits, bits, List.flatMap_cons, List.foldl_append]

/-- Two messages that differ, but only within 32 consecutive bits. -/
def Burst (x y : List UInt8) : Prop :=
  ∃ before u v after, bits x = before ++ u ++ after ∧ bits y = before ++ v ++ after ∧
    u.length = v.length ∧ u.length ≤ 32 ∧ u ≠ v

theorem byteBits_injective {a b : UInt8} (same : byteBits a = byteBits b) : a = b := by
  have words := congrArg word same
  rw [word_byteBits, word_byteBits] at words
  exact UInt8.toUInt32_inj.mp words

theorem bits_injective {x y : List UInt8} (length : x.length = y.length) (same : bits x = bits y) :
    x = y := by
  induction x generalizing y with
  | nil => exact (List.length_eq_zero_iff.mp length.symm).symm
  | cons a x ih =>
    cases y with
    | nil => cases length
    | cons b y =>
      rw [bits, bits, List.flatMap_cons, List.flatMap_cons] at same
      obtain ⟨first, rest⟩ := List.append_inj same (by simp)
      rw [byteBits_injective first, ih (by simpa using length) rest]

theorem bits_length (bytes : List UInt8) : (bits bytes).length = 8 * bytes.length := by
  induction bytes with
  | nil => rfl
  | cons byte bytes ih =>
    rw [bits, List.flatMap_cons, List.length_append, ← bits, ih, List.length_cons]
    simp only [byteBits_length]
    omega

/-- Any change within four consecutive bytes is a burst. -/
theorem Burst.of_bytes (before : List UInt8) {u v : List UInt8} (after : List UInt8)
    (length : u.length = v.length) (short : u.length ≤ 4) (differ : u ≠ v) :
    Burst (before ++ u ++ after) (before ++ v ++ after) := by
  refine ⟨bits before, bits u, bits v, bits after, ?_, ?_, ?_, ?_, ?_⟩
  · simp [bits]
  · simp [bits]
  · rw [bits_length, bits_length, length]
  · rw [bits_length]
    omega
  · intro same
    exact differ (bits_injective length same)

theorem Burst.checksum_ne {x y : List UInt8} (burst : Burst x y) (first : List UInt8) :
    checksum (first ++ x) ≠ checksum (first ++ y) := by
  obtain ⟨before, u, v, after, left, right, length, short, differ⟩ := burst
  intro same
  have registers := (UInt32.xor_left_inj _).mp same
  rw [List.foldl_append, List.foldl_append, foldl_update _ x, foldl_update _ y, left, right]
    at registers
  exact burst_detected _ length short differ registers

end Crc32
