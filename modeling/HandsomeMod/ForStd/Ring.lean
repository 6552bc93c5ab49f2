import Mathlib

/-!
# Rings with free-running counters

A ring of `2 ^ order` slots is addressed by 32-bit counters that only ever increase and wrap; masking
a counter gives its slot. The lemmas count positions with natural numbers instead.
-/

namespace HandsomeMod.ForStd.Ring

universe u

/-- The slot of a counter. -/
def slot (order : Nat) (c : UInt32) : Nat := c.toNat &&& (2 ^ order - 1)

/-- The slot of a position is its remainder by the size of the ring. -/
theorem slot_ofNat {order : Nat} (h : order ≤ 32) (p : Nat) :
    slot order (UInt32.ofNat p) = p % 2 ^ order := by
  have hdvd : 2 ^ order ∣ 2 ^ 32 := Nat.pow_dvd_pow 2 h
  rw [slot, Nat.and_two_pow_sub_one_eq_mod, UInt32.toNat_ofNat', Nat.mod_mod_of_dvd _ hdvd]

/-- The distance of two counters. -/
theorem sub_ofNat {d c : Nat} (h : d ≤ c) (hlt : c < d + 2 ^ 32) :
    (UInt32.ofNat c - UInt32.ofNat d).toNat = c - d := by
  rw [UInt32.toNat_sub, UInt32.toNat_ofNat', UInt32.toNat_ofNat']
  omega

/-- Positions less than `2 ^ 32` apart are told apart by their counters. -/
theorem ofNat_inj {d c : Nat} (h : d ≤ c) (hlt : c < d + 2 ^ 32) :
    UInt32.ofNat c = UInt32.ofNat d ↔ c = d := by
  constructor
  · intro heq
    have hsub := sub_ofNat h hlt
    rw [heq, UInt32.sub_self] at hsub
    have hzero : (0 : UInt32).toNat = 0 := rfl
    omega
  · intro heq
    rw [heq]

/-- Positions less than a turn apart have different slots. -/
theorem eq_of_mod_eq {s p q : Nat} (h : p % s = q % s) (hpq : p < q + s) (hqp : q < p + s) :
    p = q := by
  obtain hle | hle := Nat.le_total p q
  · have hdvd : s ∣ q - p := (Nat.modEq_iff_dvd' hle).mp h
    have hzero := Nat.eq_zero_of_dvd_of_lt hdvd (by omega)
    omega
  · have hdvd : s ∣ p - q := (Nat.modEq_iff_dvd' hle).mp h.symm
    have hzero := Nat.eq_zero_of_dvd_of_lt hdvd (by omega)
    omega

/-- Two positions of one turn have different slots. -/
theorem mod_ne {s d p q : Nat} (hne : p ≠ q) (hp : d ≤ p) (hp' : p < d + s) (hq : d ≤ q)
    (hq' : q < d + s) : p % s ≠ q % s :=
  fun heq => hne (eq_of_mod_eq heq (by omega) (by omega))

/-- A write to the slot of a position, seen from positions less than a turn away. -/
theorem update_mod {α : Type u} (f : Nat → α) (a : α) {s p q : Nat} (hpq : p < q + s)
    (hqp : q < p + s) :
    Function.update f (q % s) a (p % s) = if p = q then a else f (p % s) := by
  by_cases h : p = q
  · rw [h, if_pos rfl, Function.update_self]
  · rw [if_neg h, Function.update_of_ne]
    exact fun heq => h (eq_of_mod_eq heq hpq hqp)

/-- Every slot is that of a position of the turn from `d` on. -/
theorem exists_position {s i : Nat} (d : Nat) (hi : i < s) : ∃ p, d ≤ p ∧ p < d + s ∧ p % s = i := by
  have hmod := Nat.mod_lt d (Nat.zero_lt_of_lt hi)
  have hdiv := Nat.div_add_mod d s
  by_cases h : d % s ≤ i
  · refine ⟨s * (d / s) + i, by omega, by omega, ?_⟩
    rw [Nat.mul_add_mod, Nat.mod_eq_of_lt hi]
  · refine ⟨s * (d / s + 1) + i, ?_, ?_, ?_⟩
    · rw [Nat.mul_succ]
      omega
    · rw [Nat.mul_succ]
      omega
    · rw [Nat.mul_add_mod, Nat.mod_eq_of_lt hi]

/-! ### The bit by which a slot is handed over -/

/-- A bit that was cleared is not set. -/
theorem and_not_and_self {w : Nat} (word bit : BitVec w) : (word &&& ~~~bit) &&& bit = 0#w := by
  rw [BitVec.and_assoc, BitVec.not_and_self]
  exact BitVec.and_zero

end HandsomeMod.ForStd.Ring
