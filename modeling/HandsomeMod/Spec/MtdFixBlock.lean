import HandsomeMod.Native.MtdFix
import HandsomeMod.Spec.MtdEraseLoop

/-!
# The block of a header

What is loaded are the bytes of the device from the start of the block on, and what is written
replaces these bytes and no others.
-/

namespace HandsomeMod.Native.MtdFix

open ForStd Mtd

variable {w : Nat}

/-! ### Sizes -/

/-- A size for which there is memory did not become negative as `int`. -/
theorem sizeT_toNat {i : BitVec 32} (hw : 32 ≤ w) (h : (sizeT w i).toNat < 2 ^ (w - 1)) :
    (sizeT w i).toNat = i.toNat := by
  have hpow : 2 ^ w = 2 * 2 ^ (w - 1) := by
    rw [← Nat.pow_succ']
    congr 1
    omega
  have hle : 2 ^ 31 ≤ 2 ^ (w - 1) := Nat.pow_le_pow_right (by omega) (by omega)
  have hlt := i.isLt
  rw [sizeT, BitVec.toNat_signExtend, BitVec.toNat_setWidth_of_le hw] at h ⊢
  split
  -- a negative offset extends to more than half the range
  · next hmsb =>
    rw [if_pos hmsb] at h
    rw [BitVec.msb_eq_decide, decide_eq_true_eq] at hmsb
    omega
  · omega

/-- The start of a block is not behind the position. -/
private theorem blockOffset_le (env : Env w) (offset : BitVec w) :
    (blockOffset env offset).toNat ≤ offset.toNat := by
  rw [blockOffset, BitVec.toNat_and]
  exact Nat.and_le_left

/-- Where an offset is in its block. -/
def inBlock (env : Env w) (offset : BitVec w) : Nat :=
  offset.toNat - (blockOffset env offset).toNat

/-- The position in the block as it is computed. -/
theorem inBlock_eq (env : Env w) (offset : BitVec w) :
    (offset - blockOffset env offset).toNat = inBlock env offset := by
  have hle := blockOffset_le env offset
  rw [inBlock, BitVec.toNat_sub_of_le hle]

/-- The position is the start of its block and what is behind it. -/
theorem blockOffset_add_inBlock (env : Env w) (offset : BitVec w) :
    (blockOffset env offset).toNat + inBlock env offset = offset.toNat :=
  Nat.add_sub_cancel' (blockOffset_le env offset)

/-! ### Loading -/

/-- The block can be loaded. -/
structure Loads (env : Env w) (d : MtdDev) (blockOffset : BitVec w) : Prop where
  opens : env.opens = true
  inside : blockOffset + sizeT w (erasesize d) ≤ sizeT w (mtdsize d)
  malloc : env.malloc (sizeT w (erasesize d)).toNat = true
  pread : env.pread d blockOffset.toNat (sizeT w (erasesize d)).toNat =
    (sizeT w (erasesize d)).toNat

variable {env : Env w} {d : MtdDev} {fd : Fd} {bo : BitVec w}

/-- A block that can be loaded is loaded. -/
theorem loadBlock_ok (h : Loads env d bo) :
    loadBlock env d fd bo = .ok fun i => fd.mem (bo.toNat + i) := by
  rw [loadBlock, if_neg (by rw [h.opens]; decide),
    if_neg (BitVec.not_lt.mpr h.inside), if_neg (by rw [h.malloc]; decide), if_neg (not_not.mpr h.pread)]

/-- Another one leads to exit. -/
theorem loadBlock_exit (h : ¬Loads env d bo) : loadBlock env d fd bo = .error (.exit fd) := by
  rw [loadBlock]
  split
  · rfl
  · next hopens =>
    split
    · rfl
    · next hinside =>
      split
      · rfl
      · next hmalloc =>
        split
        · rfl
        · next hpread =>
          exact absurd ⟨Bool.of_not_eq_false hopens, BitVec.not_lt.mp hinside,
            Bool.of_not_eq_false hmalloc, not_not.mp hpread⟩ h

/-- A read gives not more than asked for, and than there is. -/
theorem pread_le (env : Env w) (d : MtdDev) (pos n : Nat) :
    env.pread d pos n ≤ min n (d.size - pos) := by
  rw [Env.pread, MtdDev.pread]
  split
  · exact Nat.min_le_right _ _
  · exact le_rfl

/-- The erase size has 32 bits. -/
theorem erasesize_lt (d : MtdDev) (h : 0 < d.size) : d.erasesize < 2 ^ 32 :=
  (Nat.le_of_dvd h d.size_dvd).trans_lt d.size_lt

/-- The erase size fits a `size_t`. -/
theorem Loads.erasesize_eq (h : Loads env d bo) (hsize : 0 < d.size) :
    (sizeT w (erasesize d)).toNat = d.erasesize := by
  rw [sizeT_toNat env.width (env.malloc_lt _ h.malloc), erasesize, BitVec.toNat_ofNat,
    Nat.mod_eq_of_lt (erasesize_lt d hsize)]

/-- The block ends inside the device. -/
theorem Loads.end_le (h : Loads env d bo) (hsize : 0 < d.size) :
    bo.toNat + d.erasesize ≤ d.size := by
  have hpread := h.pread
  rw [h.erasesize_eq hsize] at hpread
  have hle := pread_le env d bo.toNat d.erasesize
  have hpos := d.erasesize_pos
  omega

/-! ### Rewriting -/

/-- The block at `pos` can be erased. -/
def CanErase (d : MtdDev) (pos : Nat) : Prop :=
  pos % d.erasesize = 0 ∧ d.canErase (pos / d.erasesize) = true

/-- The block at `pos` can be erased and written. -/
def CanRewrite (d : MtdDev) (pos : Nat) : Prop := CanErase d pos ∧ d.writeFault pos = none

/-- The memory of the device behind `rewriteBlock`. -/
def rewritten (d : MtdDev) (m : Mem) (pos : Nat) (block : Mem) : Mem := fun x =>
  if pos ≤ x ∧ x < pos + d.erasesize then block (x - pos) else m x

/-- The device behind an erase. -/
def erasedAt (d : MtdDev) (fd : Fd) (pos : Nat) : Fd :=
  { fd with
    mem := fun x => if pos ≤ x ∧ x < pos + d.erasesize then 0xff else fd.mem x
    log := fd.log ++ [.erase pos] }

/-- A block that can be erased is erased. -/
private theorem mtdEraseBlock_ok {pos : Nat} (h : CanErase d pos) (hpos : pos < d.size) :
    mtdEraseBlock d fd pos = some (erasedAt d fd pos) := by
  rw [mtdEraseBlock, Fd.memErase, Nat.mod_eq_of_lt (hpos.trans d.size_lt)]
  exact if_pos h

/-- Another one is not. -/
private theorem mtdEraseBlock_none {pos : Nat} (h : ¬CanErase d pos) (hpos : pos < d.size) :
    mtdEraseBlock d fd pos = none := by
  rw [mtdEraseBlock, Fd.memErase, Nat.mod_eq_of_lt (hpos.trans d.size_lt)]
  exact if_neg h

/-- A block that cannot be erased leads to exit. -/
theorem rewriteBlock_not_erased {pos : Nat} (block : Mem) (h : ¬CanErase d pos)
    (hpos : pos < d.size) : rewriteBlock d fd pos block = .error (.exit fd) := by
  rw [rewriteBlock, mtdEraseBlock_none h hpos]

/-- A block that can be erased and written is replaced. -/
theorem rewriteBlock_ok (fd : Fd) {pos : Nat} (block : Mem) (h : CanRewrite d pos)
    (hend : pos + d.erasesize ≤ d.size) :
    ∃ fd', rewriteBlock d fd pos block = .ok fd' ∧ fd'.mem = rewritten d fd.mem pos block := by
  obtain ⟨herase, hwrite⟩ := h
  have hpos := d.erasesize_pos
  -- the erase leaves ones, and what is written over them is the block
  rw [rewriteBlock, mtdEraseBlock_ok herase (by omega)]
  obtain ⟨hret, hmem⟩ := pwrite_ok (erasedAt d fd pos) block hwrite hpos hend
  simp only
  rw [if_neg (not_not.mpr hret)]
  refine ⟨_, rfl, hmem.trans ?_⟩
  funext x
  simp only [rewritten, erasedAt]
  split
  · next hx => exact UInt8.toBitVec_inj.mp BitVec.allOnes_and
  · rfl

/-- Another one leads to exit. -/
theorem rewriteBlock_exit (fd : Fd) {pos : Nat} (block : Mem) (h : ¬CanRewrite d pos) (hpos : pos < d.size) :
    ∃ fd', rewriteBlock d fd pos block = .error (.exit fd') := by
  by_cases herase : CanErase d pos
  · have hwrite : d.writeFault pos ≠ none := fun hwrite => h ⟨herase, hwrite⟩
    rw [rewriteBlock, mtdEraseBlock_ok herase hpos]
    simp only
    rw [pwrite_fault _ _ hwrite hpos, if_pos (by omega)]
    exact ⟨_, rfl⟩
  · exact ⟨fd, rewriteBlock_not_erased block herase hpos⟩

/-- A block that is erased is a change of the device. -/
theorem rewriteBlock_erased (fd : Fd) {pos : Nat} (block : Mem) (h : CanErase d pos) (hpos : pos < d.size) :
    rewriteBlock d fd pos block ≠ .ok fd ∧ rewriteBlock d fd pos block ≠ .error (.exit fd) := by
  rw [rewriteBlock, mtdEraseBlock_ok h hpos]
  have hne : ((erasedAt d fd pos).pwrite d block d.erasesize pos).1 ≠ fd := by
    intro heq
    -- the erase is in the log, so the file is not what it was
    obtain ⟨n, -, hlog, -⟩ := pwrite_change (erasedAt d fd pos) block d.erasesize hpos
    rw [heq] at hlog
    have hlen := congrArg List.length hlog
    simp only [erasedAt, List.length_append, List.length_singleton] at hlen
    omega
  simp only
  by_cases hret : ((erasedAt d fd pos).pwrite d block d.erasesize pos).2 = d.erasesize
  · rw [if_neg (not_not.mpr hret)]
    exact ⟨fun heq => hne (Except.ok.inj heq), fun heq => by cases heq⟩
  · rw [if_pos hret]
    exact ⟨fun heq => (by cases heq), fun heq => hne (Stop.exit.inj (Except.error.inj heq))⟩

/-- A write inside of the block is a write to the device. -/
theorem rewritten_writeBytes {m : Mem} {pos o : Nat} {block : Mem} {l : List UInt8}
    (h : o + l.length ≤ d.erasesize) :
    rewritten d m pos (writeBytes block o l) = writeBytes (rewritten d m pos block) (pos + o) l := by
  funext x
  rw [rewritten, writeBytes, writeBytes]
  split
  · next hx =>
    split
    · next hin =>
      rw [if_pos (by omega)]
      congr 1
      omega
    · rw [if_neg (by omega), rewritten, if_pos hx]
  · next hx => rw [if_neg (by omega), rewritten, if_neg hx]

/-- Writing a block as it is changes nothing. -/
theorem rewritten_self (m : Mem) (pos : Nat) :
    rewritten d m pos (fun i => m (pos + i)) = m := by
  funext x
  rw [rewritten]
  split
  · congr 1
    omega
  · rfl

/-! ### A run without faults -/

private theorem goodEnv_width : 32 ≤ 32 := by decide

/-- What `malloc` gives is below half of the address space. -/
private theorem goodEnv_malloc (n : Nat) (h : decide (n < 2 ^ 31) = true) : n < 2 ^ (32 - 1) :=
  of_decide_eq_true h

/-- Nothing fails. -/
def goodEnv (erasesize : BitVec 32) : Env 32 where
  opens := true
  erasesize := erasesize
  malloc := fun n => decide (n < 2 ^ 31)
  readFault := fun _ _ => none
  width := goodEnv_width
  malloc_lt := goodEnv_malloc

end HandsomeMod.Native.MtdFix
