import Mathlib

/-!
# Rounding up to a boundary

The next multiple of a number, and the masks that programs use for it when the number is a power of
two.
-/

namespace HandsomeMod.ForStd

/-- The first multiple of `n` from `x` on. -/
def alignUp (x n : Nat) : Nat := (x + (n - 1)) / n * n

/-- What is aligned up is a multiple of the alignment. -/
theorem dvd_alignUp (x n : Nat) : n ∣ alignUp x n := Nat.dvd_mul_left n _

/-- Aligning up does not go below the number. -/
theorem le_alignUp (x : Nat) {n : Nat} (hn : 0 < n) : x ≤ alignUp x n := by
  have hdiv := Nat.div_add_mod (x + (n - 1)) n
  have hmod := Nat.mod_lt (x + (n - 1)) hn
  rw [Nat.mul_comm] at hdiv
  rw [alignUp]
  omega

/-- No multiple lies between. -/
theorem alignUp_le {x n y : Nat} (hn : 0 < n) (hy : n ∣ y) (hxy : x ≤ y) : alignUp x n ≤ y := by
  obtain ⟨k, rfl⟩ := hy
  rw [alignUp, Nat.mul_comm]
  apply Nat.mul_le_mul_left
  rw [← Nat.lt_succ_iff, Nat.div_lt_iff_lt_mul hn, Nat.succ_mul, Nat.mul_comm k]
  omega

/-- An aligned number stays. -/
theorem alignUp_of_dvd {x n : Nat} (hn : 0 < n) (hx : n ∣ x) : alignUp x n = x :=
  Nat.le_antisymm (alignUp_le hn hx le_rfl) (le_alignUp x hn)

/-- Rounding to a smaller boundary first makes no difference. -/
theorem alignUp_alignUp (x : Nat) {m n : Nat} (hm : 0 < m) (hn : 0 < n) (hmn : m ∣ n) :
    alignUp (alignUp x m) n = alignUp x n := by
  apply Nat.le_antisymm
  · exact alignUp_le hn (dvd_alignUp x n)
      (alignUp_le hm (hmn.trans (dvd_alignUp x n)) (le_alignUp x hn))
  · exact alignUp_le hn (dvd_alignUp _ n) ((le_alignUp x hm).trans (le_alignUp _ hn))

/-- Where the next smaller boundary is a boundary already. -/
theorem alignUp_eq_of_dvd {x m n : Nat} (hm : 0 < m) (hn : 0 < n) (hmn : m ∣ n)
    (h : n ∣ alignUp x m) : alignUp x n = alignUp x m := by
  rw [← alignUp_alignUp x hm hn hmn, alignUp_of_dvd hn h]

/-! ### Masks -/

/-- Clearing the low bits of a number of `w` bits. -/
theorem and_complement {x b w : Nat} (hx : x < 2 ^ w) (hb : b ≤ w) :
    x &&& (2 ^ w - 1 - (2 ^ b - 1)) = x / 2 ^ b * 2 ^ b := by
  -- the mask is `w - b` ones above `b` zeros, the value is `x` with its low bits shifted out
  have hmask : 2 ^ w - 1 - (2 ^ b - 1) = (2 ^ (w - b) - 1) <<< b := by
    have hpow : 2 ^ w = 2 ^ (w - b) * 2 ^ b := by
      rw [← Nat.pow_add, Nat.sub_add_cancel hb]
    have hone : 1 ≤ 2 ^ b := Nat.one_le_two_pow
    rw [Nat.shiftLeft_eq, Nat.sub_mul, hpow]
    omega
  have hval : x / 2 ^ b * 2 ^ b = (x >>> b) <<< b := by
    rw [Nat.shiftLeft_eq, Nat.shiftRight_eq_div_pow]
  rw [hmask, hval]
  apply Nat.eq_of_testBit_eq
  intro i
  rw [Nat.testBit_and, Nat.testBit_shiftLeft, Nat.testBit_shiftLeft, Nat.testBit_two_pow_sub_one,
    Nat.testBit_shiftRight]
  by_cases hi : b ≤ i
  · rw [Nat.add_sub_cancel' hi]
    by_cases hlt : i < w
    · simp [hi, show i - b < w - b by omega]
    · have hfalse : x.testBit i = false :=
        Nat.testBit_lt_two_pow (hx.trans_le (Nat.pow_le_pow_right Nat.two_pos (by omega)))
      simp [hfalse]
  · simp [hi]

/-- `((x) + (m - 1)) & ~(m - 1)` for `m = 2 ^ b` -/
theorem add_and_complement {x b w : Nat} (hx : x + (2 ^ b - 1) < 2 ^ w) (hb : b ≤ w) :
    (x + (2 ^ b - 1)) &&& (2 ^ w - 1 - (2 ^ b - 1)) = alignUp x (2 ^ b) :=
  and_complement hx hb

end HandsomeMod.ForStd
