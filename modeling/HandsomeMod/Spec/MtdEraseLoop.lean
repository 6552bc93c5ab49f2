import HandsomeMod.Native.MtdDevice
import HandsomeMod.Native.MtdWrite

/-!
# The erase loop of `mtd_write`

When the loop starts with the erase pointer at block `b`, the file position there too, and one
block missing (`e = w + skip_bad_blocks`), it moves over the bad blocks from `b` on and then
erases the first block `g` that is not bad. File position, erase pointer and `skip_bad_blocks`
move together.
-/

namespace HandsomeMod.Native.Mtd

namespace MtdDev

/-- The device is made of blocks. -/
theorem nblocks_mul (d : MtdDev) : d.nblocks * d.erasesize = d.size :=
  Nat.div_mul_cancel d.size_dvd

/-- The start of a block is on the device. -/
theorem mul_erasesize_le (d : MtdDev) {b : Nat} (hb : b ≤ d.nblocks) :
    b * d.erasesize ≤ d.size := by
  rw [← d.nblocks_mul]
  exact Nat.mul_le_mul_right _ hb

/-- A bad block is on the device. -/
theorem lt_nblocks_of_isBad (d : MtdDev) {b : Nat} (h : d.isBad b = true) : b < d.nblocks := by
  simp only [isBad, Bool.and_eq_true, decide_eq_true_eq] at h
  exact h.1.2

/-- A block that can be erased is on the device. -/
theorem lt_nblocks_of_canErase (d : MtdDev) {b : Nat} (h : d.canErase b = true) :
    b < d.nblocks := by
  simp only [canErase, Bool.and_eq_true, decide_eq_true_eq] at h
  exact h.1.1

/-- Behind the device nothing can be erased. -/
theorem canErase_nblocks (d : MtdDev) : d.canErase d.nblocks = false := by
  simp [canErase]

end MtdDev

/-- An `int` that did not become negative is the number it was made from. -/
private theorem toInt_of_nonneg (n : Nat) (hn : n < 2 ^ 32) (h : 0 ≤ toInt n) : toInt n = n := by
  have hmod : n % 2 ^ 32 = n := Nat.mod_eq_of_lt hn
  simp only [toInt, BitVec.toInt_eq_toNat_cond, BitVec.toNat_ofNat, hmod] at h ⊢
  split at h <;> split <;> omega

/-- The device after a successful erase of block `g`. -/
def Fd.erased (d : MtdDev) (fd : Fd) (g : Nat) : Fd :=
  { pos := g * d.erasesize
    mem := fun x =>
      if g * d.erasesize ≤ x ∧ x < g * d.erasesize + d.erasesize then 0xff else fd.mem x
    log := fd.log ++ [.erase (g * d.erasesize)] }

/-- Asking for the status of a block inside the device gives that status, or ends the program
    when the `int` offset has become negative; past the end it never says "bad". -/
theorem mtdBlockIsBad_block (d : MtdDev) {b : Nat} (hb : b ≤ d.nblocks) :
    mtdBlockIsBad d (b * d.erasesize) = none ∨
      mtdBlockIsBad d (b * d.erasesize) = some (d.isBad b) := by
  have hle := d.mul_erasesize_le hb
  have hlt := d.size_lt
  by_cases hn : d.mtdtype = .nandflash
  · simp only [mtdBlockIsBad, hn, ↓reduceIte]
    -- `memGetBadBlock` takes an `int`: a negative answer is the error, any other is the status
    by_cases hneg : memGetBadBlock d (toInt (b * d.erasesize)) < 0
    · exact Or.inl (by simp [hneg])
    · right
      simp only [memGetBadBlock] at hneg ⊢
      split at hneg
      · omega
      · rename_i hin
        -- a non-negative `int` is the offset itself
        have hval := toInt_of_nonneg (b * d.erasesize) (by omega) (by omega)
        rw [hval] at hin ⊢
        simp only [hin, ↓reduceIte, Int.toNat_natCast, Nat.mul_div_cancel _ d.erasesize_pos]
        cases d.isBad b <;> rfl
  · right
    have hbad : d.isBad b = false := by simp [MtdDev.isBad, hn]
    simp only [mtdBlockIsBad, hn, ↓reduceIte, hbad]

/-- Erasing at a block boundary is decided by `canErase`. -/
private theorem mtdEraseBlock_block (d : MtdDev) (fd : Fd) {b : Nat} (hb : b ≤ d.nblocks)
    (hpos : fd.pos = b * d.erasesize) :
    mtdEraseBlock d fd (b * d.erasesize) =
      if d.canErase b then some (fd.erased d b) else none := by
  have hle := d.mul_erasesize_le hb
  have hmod : b * d.erasesize % 2 ^ 32 = b * d.erasesize :=
    Nat.mod_eq_of_lt (Nat.lt_of_le_of_lt hle d.size_lt)
  simp only [mtdEraseBlock, Fd.memErase, hmod, Nat.mul_mod_left,
    Nat.mul_div_cancel _ d.erasesize_pos, true_and, Fd.erased, hpos]

/-- What the erase loop does from block `b` on, by the way it ends. -/
def EraseSpec (d : MtdDev) (fd : Fd) (b skip : Nat) : EraseRes → Prop
  | .ready fd' e' skip' => ∃ g, b ≤ g ∧ (∀ i, b ≤ i → i < g → d.isBad i = true) ∧
      d.isBad g = false ∧ d.canErase g = true ∧ e' = g * d.erasesize + d.erasesize ∧
      skip' + b * d.erasesize = skip + g * d.erasesize ∧ fd' = fd.erased d g
  | .failed fd' e' skip' => ∃ g, b ≤ g ∧ g ≤ d.nblocks ∧
      (∀ i, b ≤ i → i < g → d.isBad i = true) ∧
      d.isBad g = false ∧ d.canErase g = false ∧ e' = g * d.erasesize ∧
      skip' + b * d.erasesize = skip + g * d.erasesize ∧
      fd' = { fd with pos := g * d.erasesize }
  | .exit => True
  | .outOfFuel => False

/-- One turn of the loop over a bad block leaves what the rest of the loop has to do. -/
private theorem EraseSpec.of_bad (d : MtdDev) (fd : Fd) (b skip : Nat) (r : EraseRes)
    (hbad : d.isBad b = true)
    (h : EraseSpec d (fd.seekCur d.erasesize) (b + 1) (skip + d.erasesize) r) :
    EraseSpec d fd b skip r := by
  -- the block itself is bad, so the bad blocks begin one earlier
  have hext : ∀ {g : Nat}, (∀ i, b + 1 ≤ i → i < g → d.isBad i = true) →
      ∀ i, b ≤ i → i < g → d.isBad i = true := by
    intro g hall i hi hlt
    rcases Nat.eq_or_lt_of_le hi with rfl | hi
    · exact hbad
    · exact hall i hi hlt
  cases r with
  | ready fd' e' skip' =>
    obtain ⟨g, hg, hall, hgood, hcan, he, hs, hfd⟩ := h
    rw [Nat.succ_mul] at hs
    exact ⟨g, by omega, hext hall, hgood, hcan, he, by omega, hfd⟩
  | failed fd' e' skip' =>
    obtain ⟨g, hg, hle, hall, hgood, hcan, he, hs, hfd⟩ := h
    rw [Nat.succ_mul] at hs
    exact ⟨g, by omega, hle, hext hall, hgood, hcan, he, by omega, hfd⟩
  | exit => trivial
  | outOfFuel => exact h

/-- The loop condition is false once one good block has been erased. -/
private theorem eraseLoop_stop (cfg : Config) (d : MtdDev) (w buflen fuel e skip : Nat) (fd : Fd)
    (h : w + buflen + skip ≤ e) :
    eraseLoop cfg d w buflen (fuel + 1) fd e skip = .ready fd e skip := by
  rw [eraseLoop, if_neg (by omega)]

/-- The erase loop from a state in step, with fuel for the remaining blocks. -/
theorem eraseLoop_spec (cfg : Config) (d : MtdDev) (hpart : cfg.partOffset = 0)
    (w skip fuel b : Nat) (fd : Fd) (hb : b ≤ d.nblocks) (hpos : fd.pos = b * d.erasesize)
    (hsync : b * d.erasesize = w + skip) (hfuel : d.nblocks + 2 ≤ b + fuel) :
    EraseSpec d fd b skip
      (eraseLoop cfg d w d.erasesize fuel fd (b * d.erasesize) skip) := by
  -- a bad block moves `b` and `skip` on together; the fuel covers the blocks that are left
  induction fuel generalizing b skip fd with
  | zero => omega
  | succ fuel ih =>
    have hes := d.erasesize_pos
    rw [eraseLoop, if_pos (by omega)]
    rcases mtdBlockIsBad_block d hb with hst | hst
    · rw [hst]; trivial
    · rw [hst]
      cases hbad : d.isBad b with
      | true =>
        have hlt := d.lt_nblocks_of_isBad hbad
        refine EraseSpec.of_bad d fd b skip _ hbad ?_
        have := ih (skip + d.erasesize) (b + 1) (fd.seekCur d.erasesize) (by omega)
          (by rw [Fd.seekCur, hpos, Nat.succ_mul]) (by rw [Nat.succ_mul]; omega) (by omega)
        rwa [Nat.succ_mul] at this
      | false =>
        simp only [hpart, Nat.add_zero, mtdEraseBlock_block d fd hb hpos]
        cases hcan : d.canErase b with
        -- a block that cannot be erased ends the loop at `b`
        | false =>
          refine ⟨b, Nat.le_refl _, hb, fun i _ _ => by omega, hbad, hcan, rfl, rfl, ?_⟩
          rw [← hpos]
        | true =>
          have hlt := d.lt_nblocks_of_canErase hcan
          obtain ⟨fuel, rfl⟩ : ∃ k, fuel = k + 1 := ⟨fuel - 1, by omega⟩
          simp only [↓reduceIte]
          rw [eraseLoop_stop _ _ _ _ _ _ _ _ (by omega)]
          exact ⟨b, Nat.le_refl _, fun i _ _ => by omega, hbad, hcan, rfl, rfl, rfl⟩

end HandsomeMod.Native.Mtd

/-!
## What `pwrite` does to a device

A write inside the device either succeeds as a whole, or it stops and returns `-1`.
-/

namespace HandsomeMod.Native.Mtd

variable {d : MtdDev}

/-- A write that succeeds clears bits of its range and keeps the rest. -/
theorem pwrite_ok (fd : Fd) (buf : Nat → UInt8) {n pos : Nat} (h : d.writeFault pos = none) (hn : 0 < n)
    (hend : pos + n ≤ d.size) :
    (fd.pwrite d buf n pos).2 = n ∧ (fd.pwrite d buf n pos).1.mem = fun x =>
      if pos ≤ x ∧ x < pos + n then fd.mem x &&& buf (x - pos) else fd.mem x := by
  have hwrite : Fd.write d { fd with pos := pos } buf 0 n =
      (Fd.store { fd with pos := pos } buf 0 n, (n : Int)) := by
    rw [Fd.write, if_neg (by simp only; omega)]
    simp only [h, Nat.min_eq_left (show n ≤ d.size - pos by omega)]
  rw [Fd.pwrite, hwrite]
  refine ⟨rfl, ?_⟩
  simp only [Fd.store, Nat.zero_add]

/-- A write that fails returns -1. -/
theorem pwrite_fault (fd : Fd) (buf : Nat → UInt8) {n pos : Nat} (h : d.writeFault pos ≠ none)
    (hpos : pos < d.size) : (fd.pwrite d buf n pos).2 = -1 := by
  obtain ⟨k, hk⟩ := Option.ne_none_iff_exists'.mp h
  rw [Fd.pwrite, Fd.write, if_neg (by simp only; omega)]
  simp only [hk]

/-- What a write changes, whether it succeeds or not. -/
theorem pwrite_change (fd : Fd) (buf : Nat → UInt8) (n : Nat) {pos : Nat} (hpos : pos < d.size) :
    ∃ count ≤ n, (fd.pwrite d buf n pos).1.log = fd.log ++ [.write pos 0 count] ∧
      ∀ x, x < pos ∨ pos + n ≤ x ∨ d.size ≤ x → (fd.pwrite d buf n pos).1.mem x = fd.mem x := by
  rw [Fd.pwrite, Fd.write, if_neg (by simp only; omega)]
  simp only
  cases hwrite : d.writeFault pos with
  | none =>
    refine ⟨min n (d.size - pos), Nat.min_le_left _ _, rfl, fun x hx => ?_⟩
    simp only [Fd.store]
    rw [if_neg (by omega)]
  | some k =>
    refine ⟨min k (min n (d.size - pos)), by omega, rfl, fun x hx => ?_⟩
    simp only [Fd.store]
    rw [if_neg (by omega)]

end HandsomeMod.Native.Mtd
