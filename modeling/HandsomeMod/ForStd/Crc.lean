import Mathlib

/-!
# CRC-32 a byte at a time

The reflected CRC with polynomial `0xedb88320`. The C sources carry the 256 words of `table`.
-/

namespace HandsomeMod.ForStd.Crc

/-- One bit of the division. -/
def shift (c : UInt32) : UInt32 := if c &&& 1 = 1 then (c >>> 1) ^^^ 0xedb88320 else c >>> 1

/-- `crc32_tab[i]` -/
def table (i : UInt32) : UInt32 := shift^[8] i

/-- One byte of the division. -/
def update (crc : UInt32) (b : UInt8) : UInt32 :=
  table ((crc ^^^ b.toUInt32) &&& 0xff) ^^^ (crc >>> 8)

/-- The remainder after the bytes of a buffer. -/
def accumulate (crc : UInt32) (buf : List UInt8) : UInt32 := buf.foldl update crc

/-- The register goes on behind the first part. -/
theorem accumulate_append (crc : UInt32) (l l' : List UInt8) :
    accumulate crc (l ++ l') = accumulate (accumulate crc l) l' :=
  List.foldl_append

/-!
## CRC-32 is linear

The division is linear in exclusive or: the difference of two registers goes through the bytes that
follow as if they were zeros, and no difference is lost.
-/

/-! ### One bit and one byte -/

/-- What a bit of the division adds: the polynomial for an odd word. -/
private def feedback (c : UInt32) : UInt32 := if c &&& 1 = 1 then 0xedb88320 else 0

/-- A shift adds the polynomial for the bit that falls out. -/
private theorem shift_eq (c : UInt32) : shift c = (c >>> 1) ^^^ feedback c := by
  unfold shift feedback
  split
  · rfl
  · rw [UInt32.xor_zero]

/-- The low bit of a word, as the division tests it. -/
private theorem low_bit (c : UInt32) : c &&& 1 = 0 ∨ c &&& 1 = 1 := by
  have hnat : (c &&& 1).toNat = c.toNat % 2 := by
    rw [UInt32.toNat_and]
    exact Nat.and_one_is_mod c.toNat
  rcases Nat.mod_two_eq_zero_or_one c.toNat with h | h
  · exact Or.inl (UInt32.toNat_inj.mp (by rw [hnat, h]; rfl))
  · exact Or.inr (UInt32.toNat_inj.mp (by rw [hnat, h]; rfl))

/-- Masking is linear. -/
private theorem xor_and (a b m : UInt32) : (a ^^^ b) &&& m = (a &&& m) ^^^ (b &&& m) := by
  apply UInt32.toBitVec_inj.mp
  simp only [UInt32.toBitVec_and, UInt32.toBitVec_xor]
  ext i
  simp only [BitVec.getElem_xor, BitVec.getElem_and]
  exact Bool.and_xor_distrib_right ..

/-- What falls out is linear. -/
private theorem feedback_xor (a b : UInt32) : feedback (a ^^^ b) = feedback a ^^^ feedback b := by
  unfold feedback
  rw [xor_and]
  rcases low_bit a with ha | ha <;> rcases low_bit b with hb | hb <;> rw [ha, hb] <;> decide

/-- The two halves of a sum are exchanged. -/
private theorem xor_xor_comm (a b c d : UInt32) :
    a ^^^ b ^^^ (c ^^^ d) = a ^^^ c ^^^ (b ^^^ d) := by
  ac_rfl

/-- A shift is linear. -/
theorem shift_xor (a b : UInt32) : shift (a ^^^ b) = shift a ^^^ shift b := by
  rw [shift_eq, shift_eq, shift_eq, UInt32.shiftRight_xor, feedback_xor, xor_xor_comm]

/-- A word of the table is linear in its index. -/
theorem table_xor (a b : UInt32) : table (a ^^^ b) = table a ^^^ table b := by
  unfold table
  induction 8 generalizing a b with
  | zero => rfl
  | succ n ih => rw [Function.iterate_succ_apply, shift_xor, ih]; rfl

/-- The byte goes with the first of two registers. -/
theorem update_xor (a b : UInt32) (x : UInt8) :
    update (a ^^^ b) x = update a x ^^^ update b 0 := by
  have hword : a ^^^ b ^^^ x.toUInt32 = a ^^^ x.toUInt32 ^^^ (b ^^^ (0 : UInt8).toUInt32) := by
    rw [show (0 : UInt8).toUInt32 = 0 from rfl, UInt32.xor_zero]
    ac_rfl
  unfold update
  rw [hword, xor_and, table_xor, UInt32.shiftRight_xor, xor_xor_comm]

/-- A word of the table other than the first has a bit in its top byte. -/
private theorem table_top : ∀ i < 256, (table (UInt32.ofNat i)).toNat < 2 ^ 24 → i = 0 := by
  decide +kernel

/-- Only a zero register is moved to zero. -/
theorem update_eq_zero {c : UInt32} (h : update c 0 = 0) : c = 0 := by
  have hxor : table (c &&& 0xff) = c >>> 8 := by
    rw [← UInt32.xor_eq_zero_iff]
    rwa [update, show (0 : UInt8).toUInt32 = 0 from rfl, UInt32.xor_zero] at h
  have hhigh : (c >>> 8).toNat = c.toNat / 2 ^ 8 := by
    rw [UInt32.toNat_shiftRight]
    exact Nat.shiftRight_eq_div_pow c.toNat 8
  have hlow : (c &&& 0xff).toNat = c.toNat % 2 ^ 8 := by
    rw [UInt32.toNat_and]
    exact Nat.and_two_pow_sub_one_eq_mod c.toNat 8
  have hlt : c.toNat < 2 ^ 32 := c.toNat_lt
  -- The table's word has an empty top byte, so it is the first, and both parts of `c` are zero.
  have hzero : (c &&& 0xff).toNat = 0 := by
    apply table_top
    · omega
    · rw [UInt32.ofNat_toNat, hxor, hhigh]
      omega
  have hrest : (c >>> 8).toNat = 0 := by
    rw [← hxor, ← UInt32.ofNat_toNat (x := c &&& 0xff), hzero]
    decide
  apply UInt32.toNat_inj.mp
  rw [UInt32.toNat_zero]
  omega

/-! ### A buffer -/

/-- The register after `n` zeros. -/
def zeros (n : Nat) (c : UInt32) : UInt32 := accumulate c (List.replicate n 0)

/-- The difference of two registers goes through a buffer as through zeros. -/
theorem accumulate_xor (a b : UInt32) (buf : List UInt8) :
    accumulate (a ^^^ b) buf = accumulate a buf ^^^ zeros buf.length b := by
  induction buf generalizing a b with
  | nil => rfl
  | cons x buf ih =>
    have hstep : accumulate (a ^^^ b) (x :: buf) = accumulate (update a x ^^^ update b 0) buf := by
      rw [← update_xor]
      rfl
    rw [hstep, ih]
    rfl

/-- Feeding zeros is linear. -/
theorem zeros_xor (n : Nat) (a b : UInt32) : zeros n (a ^^^ b) = zeros n a ^^^ zeros n b := by
  have h := accumulate_xor a b (List.replicate n 0)
  rwa [List.length_replicate] at h

/-- Zeros move only a zero register to zero. -/
theorem zeros_eq_zero {n : Nat} {c : UInt32} : zeros n c = 0 ↔ c = 0 := by
  constructor
  · intro h
    induction n generalizing c with
    | zero => exact h
    | succ n ih => exact update_eq_zero (ih h)
  · intro h
    have hdouble : zeros n (0 ^^^ 0) = 0 := by rw [zeros_xor, UInt32.xor_self]
    rw [h]
    exact hdouble

end HandsomeMod.ForStd.Crc
