import Mathlib.Data.List.Basic

/-!
# Accesses and shifts of C code

What a piece of C code does that has a defined meaning inside of a bound only: the bytes of an
object that it touches, and the amounts by which it shifts.
-/

namespace HandsomeMod.ForStd

inductive Access where
  /-- `count` bytes from byte `start` of an object of `size` bytes -/
  | bytes (start count size : Int)
  /-- a shift of a value of `width` bits -/
  | shift (amount : Int) (width : Nat)
  deriving Repr, DecidableEq

namespace Access

def InBounds : Access → Prop
  | bytes start count size => 0 ≤ start ∧ 0 ≤ count ∧ start + count ≤ size
  | shift amount width => 0 ≤ amount ∧ amount < width

instance : DecidablePred InBounds
  | bytes start count size =>
    inferInstanceAs (Decidable (0 ≤ start ∧ 0 ≤ count ∧ start + count ≤ size))
  | shift amount width => inferInstanceAs (Decidable (0 ≤ amount ∧ amount < width))

/-- A range of bytes is in bounds if it neither starts nor ends outside the object. -/
@[simp] theorem inBounds_bytes {start count size : Int} :
    (bytes start count size).InBounds ↔ 0 ≤ start ∧ 0 ≤ count ∧ start + count ≤ size := Iff.rfl

/-- A shift is defined if the amount is below the width. -/
@[simp] theorem inBounds_shift {amount : Int} {width : Nat} :
    (shift amount width).InBounds ↔ 0 ≤ amount ∧ amount < width := Iff.rfl

/-- All of them are in bounds. -/
def AllIn (l : List Access) : Prop := ∀ x ∈ l, x.InBounds

instance (l : List Access) : Decidable (AllIn l) :=
  inferInstanceAs (Decidable (∀ x ∈ l, x.InBounds))

@[simp] theorem allIn_nil : AllIn [] := List.forall_mem_nil _

@[simp] theorem allIn_cons {x : Access} {l : List Access} :
    AllIn (x :: l) ↔ x.InBounds ∧ AllIn l := List.forall_mem_cons

@[simp] theorem allIn_append {l l' : List Access} : AllIn (l ++ l') ↔ AllIn l ∧ AllIn l' :=
  List.forall_mem_append

/-- What is done under a condition. -/
theorem allIn_ite {p : Prop} [Decidable p] {l : List Access} :
    AllIn (if p then l else []) ↔ (p → AllIn l) := by
  split <;> simp [*]

end Access

end HandsomeMod.ForStd
