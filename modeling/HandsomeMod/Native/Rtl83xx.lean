import Mathlib

/-!
# Realtek RTL838x switch registers

Port masks and the register accessors of `rtl83xx/common.c` for the RTL838x, whose port
registers have 32 bits, and the ports that the device tree gives to the DSA core.
-/

namespace HandsomeMod.Native.Rtl83xx

abbrev U32 := BitVec 32
abbrev U64 := BitVec 64

/-- `BIT(n)`, an `unsigned long` of the MIPS core -/
def bit32 (n : Nat) : U32 := 1#32 <<< n

/-- `BIT_ULL(n)` and `1ULL << n` -/
def bitUll (n : Nat) : U64 := 1#64 <<< n

/-- `RTL838X_CPU_PORT` -/
def cpuPort : Nat := 28

/-- `ds->num_ports` -/
def numPorts : Nat := 29

/-- The ports of the device tree; `dsa_is_user_port` -/
structure Dsa where
  isUserPort : Nat → Bool
  lt_cpuPort : ∀ i, isUserPort i = true → i < cpuPort

/-- `sw_w32_mask` -/
def swW32Mask (clear set r : U32) : U32 := (r &&& ~~~clear) ||| set

/-- `rtl838x_mask_port_reg` -/
def maskPortReg (clear set : U64) (r : U32) : U32 :=
  swW32Mask (clear.setWidth 32) (set.setWidth 32) r

/-- `rtl838x_set_port_reg` -/
def setPortReg (set : U64) : U32 := set.setWidth 32

/-- `rtl838x_get_port_reg` -/
def getPortReg (r : U32) : U64 := r.setWidth 64

/-! ### Bits of a port mask -/

/-- `1 << n` has the bit `n` only. -/
private theorem getLsbD_one_shiftLeft {w n : Nat} (h : n < w) (j : Nat) :
    (1#w <<< n).getLsbD j = decide (j = n) := by
  simp only [BitVec.getLsbD_shiftLeft, BitVec.getLsbD_one]
  by_cases hj : j = n
  · subst hj
    have hpos : 0 < w := by omega
    simp [h, hpos]
  · by_cases hlt : j < n
    · simp [hj, hlt]
    · have hne : j - n ≠ 0 := by omega
      simp [hj, hne]

/-- `BIT(n)` has the bit `n` only. -/
@[simp] theorem getLsbD_bit32 {n : Nat} (h : n < 32) (j : Nat) :
    (bit32 n).getLsbD j = decide (j = n) := getLsbD_one_shiftLeft h j

/-- `BIT_ULL(n)` has the bit `n` only. -/
@[simp] theorem getLsbD_bitUll {n : Nat} (h : n < 64) (j : Nat) :
    (bitUll n).getLsbD j = decide (j = n) := getLsbD_one_shiftLeft h j

/-- `mask_port_reg` clears and then sets ports. -/
theorem getLsbD_maskPortReg (clear set : U64) (r : U32) {j : Nat} (hj : j < 32) :
    (maskPortReg clear set r).getLsbD j =
      (r.getLsbD j && !clear.getLsbD j || set.getLsbD j) := by
  simp [maskPortReg, swW32Mask, hj]

/-- `set_port_reg` has the ports that are set. -/
theorem getLsbD_setPortReg (set : U64) {j : Nat} (hj : j < 32) :
    (setPortReg set).getLsbD j = set.getLsbD j := by
  simp [setPortReg, hj]

/-- `get_port_reg` has the ports of the register. -/
theorem getLsbD_getPortReg (r : U32) {j : Nat} (hj : j < 32) :
    (getPortReg r).getLsbD j = r.getLsbD j := by
  have hlt : j < 64 := by omega
  simp [getPortReg, hlt]

/-! ### Table commands

A command is made of constant bits and of an index that is masked to the low bits.
-/

/-- The index of a table command keeps the other bits. -/
theorem getLsbD_cmd (c idx m : U32) {k : Nat} (hm : m.getLsbD k = false) :
    (c ||| (idx &&& m)).getLsbD k = c.getLsbD k := by
  rw [BitVec.getLsbD_or, BitVec.getLsbD_and, hm, Bool.and_false, Bool.or_false]

/-- The index of a table command is in its lowest bits. -/
theorem setWidth_cmd (c idx m : U32) {k : Nat} (hc : c.setWidth k = 0#k)
    (hm : m.toNat = 2 ^ k - 1) : (c ||| (idx &&& m)).setWidth k = idx.setWidth k := by
  rw [BitVec.setWidth_or, hc, BitVec.zero_or]
  apply BitVec.eq_of_toNat_eq
  rw [BitVec.toNat_setWidth, BitVec.toNat_setWidth, BitVec.toNat_and, hm,
    Nat.and_two_pow_sub_one_eq_mod, Nat.mod_mod]

end HandsomeMod.Native.Rtl83xx
