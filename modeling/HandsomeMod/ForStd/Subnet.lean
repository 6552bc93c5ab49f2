import Mathlib

/-!
# Networks

Addresses are numbers below `2 ^ w`; the low `k` bits of an address are its host part. The network
of an address consists of the addresses that differ from it only there.
-/

namespace HandsomeMod.ForStd

/-- The addresses in the network of `x` with `k` host bits. -/
def network (k x : Nat) : Set Nat := {a | a / 2 ^ k = x / 2 ^ k}

/-- The address with a host part of zeros. -/
def lowest (k x : Nat) : Nat := x / 2 ^ k * 2 ^ k

/-- The address with a host part of ones. -/
def highest (k x : Nat) : Nat := lowest k x + (2 ^ k - 1)

variable {w k x : Nat}

/-- An address is its network and its host part. -/
theorem lowest_add_mod (k x : Nat) : lowest k x + x % 2 ^ k = x := Nat.div_add_mod' x (2 ^ k)

/-- The network address is the least of the network. -/
theorem isLeast_lowest (k x : Nat) : IsLeast (network k x) (lowest k x) := by
  have hpos : 0 < 2 ^ k := Nat.two_pow_pos k
  constructor
  · exact Nat.mul_div_cancel _ hpos
  · intro a ha
    rw [lowest, ← show a / 2 ^ k = x / 2 ^ k from ha]
    exact Nat.div_mul_le_self a (2 ^ k)

/-- The broadcast address is the greatest of the network. -/
theorem isGreatest_highest (k x : Nat) : IsGreatest (network k x) (highest k x) := by
  have hpos : 0 < 2 ^ k := Nat.two_pow_pos k
  constructor
  · show highest k x / 2 ^ k = x / 2 ^ k
    have hones : (2 ^ k - 1) / 2 ^ k = 0 := Nat.div_eq_of_lt (by omega)
    rw [highest, lowest, Nat.mul_comm, Nat.mul_add_div hpos, hones, Nat.add_zero]
  · intro a ha
    have hmod := Nat.mod_lt a hpos
    have hsplit := lowest_add_mod k a
    have hlow : lowest k a = lowest k x := congrArg (· * 2 ^ k) ha
    rw [highest]
    omega

/-- The broadcast address has no more bits than an address. -/
theorem highest_lt (hk : k ≤ w) (hx : x < 2 ^ w) : highest k x < 2 ^ w := by
  have hpow : 2 ^ w = 2 ^ (w - k) * 2 ^ k := by rw [← Nat.pow_add, Nat.sub_add_cancel hk]
  have hdiv : x / 2 ^ k < 2 ^ (w - k) := by
    rw [Nat.div_lt_iff_lt_mul (Nat.two_pow_pos k), ← hpow]
    exact hx
  have hmul : (x / 2 ^ k + 1) * 2 ^ k ≤ 2 ^ (w - k) * 2 ^ k := Nat.mul_le_mul_right _ hdiv
  have hpos : 0 < 2 ^ k := Nat.two_pow_pos k
  rw [Nat.succ_mul] at hmul
  rw [highest, lowest]
  omega

/-- The mask of the network part clears the host part. -/
theorem and_netmask (hk : k ≤ w) (hx : x < 2 ^ w) :
    x &&& ((2 ^ k - 1) ^^^ (2 ^ w - 1)) = lowest k x := by
  apply Nat.eq_of_testBit_eq
  intro i
  rw [lowest, Nat.testBit_and, Nat.testBit_xor, Nat.testBit_two_pow_sub_one,
    Nat.testBit_two_pow_sub_one, Nat.testBit_mul_two_pow, Nat.testBit_div_two_pow]
  -- the mask has the bits from `k` on, and `x` has none from `w` on
  by_cases hi : k ≤ i
  · rw [decide_eq_false (by omega), Bool.false_xor, decide_eq_true hi, Bool.true_and,
      Nat.sub_add_cancel hi]
    by_cases hw : i < w
    · rw [decide_eq_true hw, Bool.and_true]
    · have hzero : x.testBit i = false := Nat.testBit_lt_two_pow
        (Nat.lt_of_lt_of_le hx (Nat.pow_le_pow_right Nat.two_pos (by omega)))
      rw [hzero, Bool.false_and]
  · rw [decide_eq_true (show i < k by omega), decide_eq_true (show i < w by omega),
      Bool.xor_self, Bool.and_false, decide_eq_false hi, Bool.false_and]

/-- A host part is put into the lowest address. -/
theorem lowest_or {h : Nat} (hh : h < 2 ^ k) (x : Nat) : lowest k x ||| h = lowest k x + h := by
  rw [lowest, Nat.mul_comm]
  exact (Nat.two_pow_add_eq_or_of_lt hh _).symm

end HandsomeMod.ForStd
