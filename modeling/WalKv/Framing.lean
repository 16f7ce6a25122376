import Mathlib.Data.List.Basic

/-! Streams of frames written one after the other. Wherever such a stream is cut,
it is some whole frames and a proper part of the next one. -/
namespace Framing

variable {A B : Type} {frame : A → List B} {items : List A} {n k : Nat}

def stream (frame : A → List B) (items : List A) : List B := items.flatMap frame

@[simp] theorem stream_nil : stream frame [] = [] := rfl

@[simp] theorem stream_cons (a : A) (items : List A) :
    stream frame (a :: items) = frame a ++ stream frame items := rfl

@[simp] theorem stream_append (first second : List A) :
    stream frame (first ++ second) = stream frame first ++ stream frame second :=
  List.flatMap_append

theorem stream_concat (items : List A) (a : A) :
    stream frame (items ++ [a]) = stream frame items ++ frame a := by
  rw [stream_append, stream_cons, stream_nil, List.append_nil]

theorem stream_prefix {first second : List A} (shorter : first <+: second) :
    stream frame first <+: stream frame second := by
  obtain ⟨rest, rfl⟩ := shorter
  rw [stream_append]
  exact List.prefix_append _ _

/-- How many whole frames the first `n` symbols of a stream hold. -/
def whole (frame : A → List B) : List A → Nat → Nat
  | [], _ => 0
  | a :: items, n =>
    if (frame a).length ≤ n then whole frame items (n - (frame a).length) + 1 else 0

/-- A frame of which not everything is there. -/
def Torn (frame : A → List B) (a : A) (part : List B) : Prop :=
  part <+: frame a ∧ part.length < (frame a).length

/-- Frames that fit are whole, and the first that does not is torn. -/
theorem take_stream (frame : A → List B) (items : List A) (n : Nat) :
    ∃ part, (stream frame items).take n = stream frame (items.take (whole frame items n)) ++ part ∧
      (part = [] ∨ ∃ a ∈ items, Torn frame a part) := by
  induction items generalizing n with
  | nil => exact ⟨[], by simp, Or.inl rfl⟩
  | cons a items ih =>
    by_cases fits : (frame a).length ≤ n
    · obtain ⟨part, split, torn⟩ := ih (n - (frame a).length)
      refine ⟨part, ?_, torn.imp_right fun ⟨x, inside, short⟩ =>
        ⟨x, List.mem_cons_of_mem _ inside, short⟩⟩
      rw [stream_cons, List.take_append, List.take_of_length_le fits, split, whole, if_pos fits,
        List.take_succ_cons, stream_cons, List.append_assoc]
    · refine ⟨(frame a).take n, ?_, Or.inr ⟨a, List.mem_cons_self, List.take_prefix _ _, ?_⟩⟩
      · rw [whole, if_neg fits, List.take_zero, stream_nil, List.nil_append, stream_cons,
          List.take_append_of_le_length (by omega)]
      · rw [List.length_take]
        omega

theorem whole_le (frame : A → List B) (items : List A) (n : Nat) :
    whole frame items n ≤ items.length := by
  induction items generalizing n with
  | nil => exact Nat.le_refl 0
  | cons a items ih =>
    rw [whole]
    split_ifs
    · exact Nat.succ_le_succ (ih _)
    · exact Nat.zero_le _

/-- So many frames are whole when their symbols are there. -/
theorem le_whole_iff (within : k ≤ items.length) :
    k ≤ whole frame items n ↔ (stream frame (items.take k)).length ≤ n := by
  induction items generalizing n k with
  | nil => simp_all
  | cons a items ih =>
    cases k with
    | zero => simp
    | succ k =>
      rw [whole, List.take_succ_cons, stream_cons, List.length_append]
      split_ifs with fits
      · rw [Nat.succ_le_succ_iff, ih (Nat.le_of_succ_le_succ within)]
        omega
      · omega

theorem whole_eq_length_iff :
    whole frame items n = items.length ↔ (stream frame items).length ≤ n := by
  have bound := whole_le frame items n
  have all : items.length ≤ whole frame items n ↔ _ := le_whole_iff (Nat.le_refl items.length)
  rw [List.take_length] at all
  rw [← all]
  omega

end Framing
