import HandsomeMod.Native.Mapcalc

/-!
# The bit copies of `mapcalc`

`bmemcpy` replaces exactly the first bits of its destination, and `bmemcpys64` replaces them by
bits from anywhere in its source, in either byte order, as long as the bits fit in its 8-byte
scratch word.
-/

namespace HandsomeMod.Native.Mapcalc

open ForStd

/-! ### `bmemcpy` -/

/-- The mask keeps the last `8 - r` bits of a byte. -/
private theorem testBit_mask {r j : Nat} (hr : r < 8) (hj : j < 8) :
    (UInt8.ofNat ((1 <<< (8 - r)) - 1)).toNat.testBit (7 - j) = decide (r ≤ j) ∧
      (~~~UInt8.ofNat ((1 <<< (8 - r)) - 1)).toNat.testBit (7 - j) = decide (j < r) := by
  have h : ∀ r : Fin 8, ∀ j : Fin 8,
      (UInt8.ofNat ((1 <<< (8 - r.val)) - 1)).toNat.testBit (7 - j) = decide (r ≤ j) ∧
        (~~~UInt8.ofNat ((1 <<< (8 - r.val)) - 1)).toNat.testBit (7 - j) = decide (j < r) := by
    decide
  exact h ⟨r, hr⟩ ⟨j, hj⟩

/-- `bmemcpy` replaces the first `bits` bits and no others. -/
theorem bit_bmemcpy (a b : Mem) (bits i : Nat) :
    bit (bmemcpy a b bits) i = if i < bits then bit b i else bit a i := by
  simp only [bit, bmemcpy]
  by_cases hlt : i / 8 < bits / 8
  · rw [if_pos hlt, if_pos (show i < bits by omega)]
  · rw [if_neg hlt]
    -- the last byte is taken in part, when the number of bits is not a multiple of 8
    by_cases heq : i / 8 = bits / 8 ∧ bits % 8 > 0
    · obtain ⟨hkeep, htake⟩ := testBit_mask (show bits % 8 < 8 by omega) (show i % 8 < 8 by omega)
      rw [if_pos heq, UInt8.toNat_or, UInt8.toNat_and, UInt8.toNat_and, Nat.testBit_or,
        Nat.testBit_and, Nat.testBit_and, hkeep, htake]
      by_cases hi : i < bits
      · simp [hi, show ¬ bits % 8 ≤ i % 8 by omega, show i % 8 < bits % 8 by omega]
      · simp [hi, show bits % 8 ≤ i % 8 by omega, show ¬ i % 8 < bits % 8 by omega]
    · rw [if_neg heq, if_neg (show ¬ i < bits by omega)]

/-! ### `bmemcpys64` -/

/-- A word that was read big-endian, changed by `f` and written back. -/
theorem bit_memcpyAt_store (e : Endian) (m : Mem) {n i : Nat} (v : Nat) (hi : i < 8 * n) :
    bit (memcpyAt m 0 (e.store n (e.beToCpu n v)) n) i = v.testBit (8 * n - 1 - i) := by
  have hbyte : memcpyAt m 0 (e.store n (e.beToCpu n v)) n (i / 8) = storeBE n v (i / 8) := by
    rw [memcpyAt, if_pos ⟨Nat.zero_le _, by omega⟩]
    exact store_beToCpu e v (by omega)
  rw [bit, hbyte, ← bit_storeBE v hi, bit]

/-- Where `bmemcpys64` reads one to eight bytes, it takes `nbits` bits from `frombits` on and
    leaves the other bits of its destination alone. -/
theorem bit_bmemcpys64 (e : Endian) (a b : Mem) {frombits nbits : Nat} (i : Nat)
    (h : (frombits + nbits) / 8 - frombits / 8 ≤ 7) :
    bit (bmemcpys64 e a b frombits nbits) i =
      if i < nbits then bit b (frombits + i) else bit a i := by
  simp only [bmemcpys64]
  rw [bit_bmemcpy]
  split
  · rename_i hi
    -- the bytes that the field touches are the first of the 64-bit word
    have hbyte : memcpyAt zeros 0 (fun i => b (frombits / 8 + i))
        ((frombits + nbits) / 8 - frombits / 8 + 1) ((i + frombits % 8) / 8) =
          b ((frombits + i) / 8) := by
      rw [memcpyAt, if_pos ⟨Nat.zero_le _, by omega⟩]
      congr 1
      omega
    rw [bit_memcpyAt_store e _ _ (by omega), beToCpu_load, Nat.testBit_mod_two_pow,
      decide_eq_true (by omega), Bool.true_and, Nat.testBit_shiftLeft,
      decide_eq_true (by omega), Bool.true_and, testBit_loadBE, decide_eq_true (by omega),
      Bool.true_and, show 8 * 8 - 1 - (8 * 8 - 1 - i - frombits % 8) = i + frombits % 8 by omega,
      bit, hbyte, bit]
    congr 2
    omega
  · rfl

/-- `bmemcpys64` extracts bits: the first bits of the destination become the ones of the source from
    `frombits` on, the others stay. -/
theorem bmemcpys64_extracts (e : Endian) (a b : Mem) (frombits nbits : Nat)
    (h : (frombits + nbits) / 8 - frombits / 8 ≤ 7) :
    (∀ i < nbits, bit (bmemcpys64 e a b frombits nbits) i = bit b (frombits + i)) ∧
      ∀ i, nbits ≤ i → bit (bmemcpys64 e a b frombits nbits) i = bit a i := by
  constructor
  · intro i hi
    rw [bit_bmemcpys64 e a b i h, if_pos hi]
  · intro i hi
    rw [bit_bmemcpys64 e a b i h, if_neg (Nat.not_lt.mpr hi)]

/-- The three bits from bit 6 on, which lie in two bytes. -/
theorem bmemcpys64_extracts_sample :
    (∀ i < 3, bit (bmemcpys64 .little zeros (fun _ => 0xa5) 6 3) i = bit (fun _ => 0xa5) (6 + i)) ∧
      ∀ i, 3 ≤ i → bit (bmemcpys64 .little zeros (fun _ => 0xa5) 6 3) i = bit zeros i :=
  bmemcpys64_extracts .little zeros (fun _ => 0xa5) 6 3 (by decide)

end HandsomeMod.Native.Mapcalc
