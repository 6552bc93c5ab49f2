import HandsomeMod.Native.MtdImagetag
import HandsomeMod.Spec.MtdFixBlock

/-!
# When an image tag is fixed

The checksum of a tag is taken at its place in the block, as if that were its place on the device.
So tags of the first block are fixed, and others by chance.
-/

namespace HandsomeMod.Native.MtdImagetag

open ForStd Mtd MtdFix

variable {w : Nat}

/-! ### The steps in a tag -/

/-- `strncpy` fills its field. -/
private theorem length_strncpy (src : List UInt8) (n : Nat) : (strncpy src n).length = n := by
  have hle : ((src.take n).takeWhile (· ≠ 0)).length ≤ n :=
    (List.takeWhile_sublist _).length_le.trans (List.length_take_le n src)
  rw [strncpy, List.length_append, List.length_replicate]
  omega

/-- The text that was copied is the text. -/
private theorem takeWhile_strncpy {src : List UInt8} {n : Nat} (h : src.length = n) :
    (strncpy src n).takeWhile (· ≠ 0) = src.takeWhile (· ≠ 0) := by
  have hall : ∀ c ∈ src.takeWhile (· ≠ 0), decide (c ≠ 0) = true := by
    intro c hc
    have himp := List.mem_takeWhile_imp hc
    exact himp
  rw [strncpy, ← h, List.take_length, List.takeWhile_append_of_pos hall]
  cases src.length - (src.takeWhile (· ≠ 0)).length with
  | zero => simp
  | succ k => simp [List.replicate_succ]

/-- A number of the size of its field is copied whole. -/
private theorem number_strncpy (w : Nat) {src : List UInt8} {n : Nat} (h : src.length = n) :
    number w (strncpy src n) = number w src := by
  rw [number, number, takeWhile_strncpy h]

/-- The text of a zero with its NUL. -/
private theorem length_zeroText : ([0x30, 0] : List UInt8).length = 2 := rfl

/-- A checksum has four bytes. -/
theorem length_crc (machine : Endian) (crc : UInt32) :
    (bytesAt (machine.store 4 crc.toNat) 0 4).length = 4 :=
  length_bytesAt _ _ _

/-- A length field has its size. -/
private theorem length_lengthField (m : Mem) (tag pos : Nat) :
    (lengthField m tag pos).length = imageLen :=
  length_bytesAt _ _ _

/-- A checksum field has its size. -/
private theorem length_crcField (m : Mem) (tag pos : Nat) : (crcField m tag pos).length = 4 :=
  length_bytesAt _ _ _

/-- Another field than the one that is written. -/
theorem bytesAt_writeBytes_field (m : Mem) (tag : Nat) {a n pos len : Nat} {l : List UInt8}
    (hl : l.length = len) (h : a + n ≤ pos ∨ pos + len ≤ a) :
    bytesAt (writeBytes m (tag + pos) l) (tag + a) n = bytesAt m (tag + a) n := by
  rcases h with h | h
  · exact bytesAt_writeBytes_before m l (by omega)
  · exact bytesAt_writeBytes_after m n l (by omega)

section Steps

variable (machine : Endian) (m : Mem) (tag : Nat)

/-- A write to the tag keeps what is outside of it. -/
private theorem writeBytes_of_outside {pos len x : Nat} {l : List UInt8} (hl : l.length = len)
    (hlen : pos + len ≤ sizeofTag) (hx : x < tag ∨ tag + sizeofTag ≤ x) :
    writeBytes m (tag + pos) l x = m x := by
  rcases hx with hx | hx
  · exact writeBytes_of_lt l (by omega)
  · exact writeBytes_of_le l (by omega)

/-- Bytes that are not of the tag. -/
private theorem fixTag_of_outside {x : Nat} (hx : x < tag ∨ tag + sizeofTag ≤ x) :
    fixTag machine m tag x = m x := by
  rw [fixTag]
  rw [sealTag, storeCrc, writeBytes_of_outside _ tag (length_crc machine _) (by decide) hx,
    storeCrc, writeBytes_of_outside _ tag (length_crc machine _) (by decide) hx,
    copyCrc, writeBytes_of_outside _ tag (length_crcField _ _ _) (by decide) hx,
    copyCrc, writeBytes_of_outside _ tag (length_crcField _ _ _) (by decide) hx,
    copyLength, writeBytes_of_outside _ tag (length_strncpy _ _) (by decide) hx,
    clearRootLength, writeBytes_of_outside _ tag length_zeroText (by decide) hx]

/-- The fields that are written, and their lengths. -/
def written : List (Nat × Nat) :=
  [(rootLengthAt, 2), (totalLengthAt, imageLen), (imageCrcAt, 4), (fskernelCrcAt, 4),
    (rootfsCrcAt, 4), (headerCrcAt, 4)]

/-- A field that stays. -/
private theorem bytesAt_fixTag {a n : Nat} (h : ∀ f ∈ written, a + n ≤ f.1 ∨ f.1 + f.2 ≤ a) :
    bytesAt (fixTag machine m tag) (tag + a) n = bytesAt m (tag + a) n := by
  simp only [written, List.forall_mem_cons] at h
  obtain ⟨hroot, htotal, himage, hfskernel, hrootfs, hheader, -⟩ := h
  rw [fixTag]
  rw [sealTag, storeCrc, bytesAt_writeBytes_field _ tag (length_crc machine _) hheader,
    storeCrc, bytesAt_writeBytes_field _ tag (length_crc machine _) hrootfs,
    copyCrc, bytesAt_writeBytes_field _ tag (length_crcField _ _ _) hfskernel,
    copyCrc, bytesAt_writeBytes_field _ tag (length_crcField _ _ _) himage,
    copyLength, bytesAt_writeBytes_field _ tag (length_strncpy _ _) htotal,
    clearRootLength, bytesAt_writeBytes_field _ tag length_zeroText hroot]

/-- The fix keeps the length of the kernel. -/
private theorem kernelLength_fixTag : lengthField (fixTag machine m tag) tag kernelLengthAt =
    lengthField m tag kernelLengthAt :=
  bytesAt_fixTag machine m tag (by decide)

/-- The fix keeps the length of the CFE. -/
private theorem cfeLength_fixTag : lengthField (fixTag machine m tag) tag cfeLengthAt =
    lengthField m tag cfeLengthAt :=
  bytesAt_fixTag machine m tag (by decide)

/-- The fix keeps the checksum of the kernel. -/
private theorem kernelCrc_fixTag : crcField (fixTag machine m tag) tag kernelCrcAt =
    crcField m tag kernelCrcAt :=
  bytesAt_fixTag machine m tag (by decide)

/-- The fix copies the length of the kernel to the total length. -/
private theorem totalLength_fixTag : lengthField (fixTag machine m tag) tag totalLengthAt =
    strncpy (lengthField m tag kernelLengthAt) imageLen := by
  rw [fixTag, lengthField]
  rw [sealTag, storeCrc, bytesAt_writeBytes_field _ tag (length_crc machine _) (by decide),
    storeCrc, bytesAt_writeBytes_field _ tag (length_crc machine _) (by decide),
    copyCrc, bytesAt_writeBytes_field _ tag (length_crcField _ _ _) (by decide),
    copyCrc, bytesAt_writeBytes_field _ tag (length_crcField _ _ _) (by decide),
    copyLength, bytesAt_writeBytes_eq _ (length_strncpy _ _), clearRootLength, lengthField,
    bytesAt_writeBytes_field _ tag length_zeroText (by decide)]
  rfl

/-- The fix copies the checksum of the kernel to that of the image. -/
private theorem imageCrc_fixTag : crcField (fixTag machine m tag) tag imageCrcAt =
    crcField m tag kernelCrcAt := by
  rw [fixTag, crcField]
  rw [sealTag, storeCrc, bytesAt_writeBytes_field _ tag (length_crc machine _) (by decide),
    storeCrc, bytesAt_writeBytes_field _ tag (length_crc machine _) (by decide),
    copyCrc, bytesAt_writeBytes_field _ tag (length_crcField _ _ _) (by decide),
    copyCrc, bytesAt_writeBytes_eq _ (length_crcField _ _ _), crcField,
    copyLength, bytesAt_writeBytes_field _ tag (length_strncpy _ _) (by decide),
    clearRootLength, bytesAt_writeBytes_field _ tag length_zeroText (by decide)]
  rfl

/-- The fix copies the checksum of the kernel to that of kernel and root. -/
private theorem fskernelCrc_fixTag : crcField (fixTag machine m tag) tag fskernelCrcAt =
    crcField m tag kernelCrcAt := by
  rw [fixTag, crcField]
  rw [sealTag, storeCrc, bytesAt_writeBytes_field _ tag (length_crc machine _) (by decide),
    storeCrc, bytesAt_writeBytes_field _ tag (length_crc machine _) (by decide),
    copyCrc, bytesAt_writeBytes_eq _ (length_crcField _ _ _), crcField,
    copyCrc, bytesAt_writeBytes_field _ tag (length_crcField _ _ _) (by decide),
    copyLength, bytesAt_writeBytes_field _ tag (length_strncpy _ _) (by decide),
    clearRootLength, bytesAt_writeBytes_field _ tag length_zeroText (by decide)]
  rfl

/-- The root length is the text `0`. -/
private theorem number_rootLength_fixTag (w : Nat) :
    number w (lengthField (fixTag machine m tag) tag rootLengthAt) = 0 := by
  have htwo : bytesAt (fixTag machine m tag) (tag + rootLengthAt) 2 = [0x30, 0] := by
    rw [fixTag]
    rw [sealTag, storeCrc, bytesAt_writeBytes_field _ tag (length_crc machine _) (by decide),
      storeCrc, bytesAt_writeBytes_field _ tag (length_crc machine _) (by decide),
      copyCrc, bytesAt_writeBytes_field _ tag (length_crcField _ _ _) (by decide),
      copyCrc, bytesAt_writeBytes_field _ tag (length_crcField _ _ _) (by decide),
      copyLength, bytesAt_writeBytes_field _ tag (length_strncpy _ _) (by decide),
      clearRootLength, bytesAt_writeBytes_eq _ length_zeroText]
  rw [lengthField, show imageLen = 2 + 8 from rfl, bytesAt_add, htwo]
  simp [number, strtoul10, skipSign, isSpace, isDigit, decimal]

/-- The checksum of the header is that of its bytes. -/
theorem loadHeaderCrc_sealTag :
    (Crc.accumulate crcStart (bytesAt (sealTag machine m tag) tag headerCrcAt)).toNat =
      loadHeaderCrc machine (sealTag machine m tag) tag := by
  rw [sealTag, storeCrc, bytesAt_writeBytes_before _ _ le_rfl, loadHeaderCrc]
  have hload (crc : UInt32) :
      machine.load 4 (machine.store 4 crc.toNat) = crc.toNat :=
    machine.load_store crc.toNat_lt
  rw [← hload]
  apply Endian.load_congr
  intro i hi
  rw [writeBytes_add _ _ (by rw [length_bytesAt]; exact hi), getD_bytesAt _ _ hi, Nat.zero_add,
    hload]

/-- The checksum of the header is right behind the fix. -/
private theorem loadHeaderCrc_fixTag :
    (Crc.accumulate crcStart (bytesAt (fixTag machine m tag) tag headerCrcAt)).toNat =
      loadHeaderCrc machine (fixTag machine m tag) tag :=
  loadHeaderCrc_sealTag machine _ tag

end Steps

/-! ### A tag in its block -/

section Block

variable {d : MtdDev} {m block : Mem} {pos o : Nat} (h : o + sizeofTag ≤ d.erasesize)

include h

/-- The bytes of the tag in the rewritten block. -/
private theorem bytesAt_rewritten {a n : Nat} (hn : a + n ≤ sizeofTag) :
    bytesAt (rewritten d m pos block) (pos + o + a) n = bytesAt block (o + a) n := by
  apply List.map_congr_left
  intro i hi
  rw [List.mem_range] at hi
  rw [rewritten, if_pos (by omega)]
  congr 1
  omega

/-- A write in the block is a write on the device. -/
private theorem rewritten_write {a n : Nat} {l : List UInt8} (hl : l.length = n)
    (hn : a + n ≤ sizeofTag) :
    rewritten d m pos (writeBytes block (o + a) l) =
      writeBytes (rewritten d m pos block) (pos + o + a) l := by
  rw [rewritten_writeBytes (by omega), Nat.add_assoc]

/-- Clearing the length of the root, in the block and on the device. -/
private theorem rewritten_clearRootLength : rewritten d m pos (clearRootLength block o) =
    clearRootLength (rewritten d m pos block) (pos + o) :=
  rewritten_write h length_zeroText (by decide)

/-- Copying the length of the kernel, in the block and on the device. -/
private theorem rewritten_copyLength : rewritten d m pos (copyLength block o) =
    copyLength (rewritten d m pos block) (pos + o) := by
  rw [copyLength, copyLength, lengthField, lengthField, bytesAt_rewritten h (by decide)]
  exact rewritten_write h (length_strncpy _ _) (by decide)

/-- Copying the checksum of the kernel, in the block and on the device. -/
private theorem rewritten_copyCrc {a : Nat} (ha : a + 4 ≤ sizeofTag) :
    rewritten d m pos (copyCrc block o a) = copyCrc (rewritten d m pos block) (pos + o) a := by
  rw [copyCrc, copyCrc, crcField, crcField, bytesAt_rewritten h (by decide)]
  exact rewritten_write h (length_bytesAt _ _ _) ha

/-- Storing a checksum, in the block and on the device. -/
private theorem rewritten_storeCrc (machine : Endian) {a : Nat} (ha : a + 4 ≤ sizeofTag)
    (crc : UInt32) :
    rewritten d m pos (storeCrc machine block (o + a) crc) =
      storeCrc machine (rewritten d m pos block) (pos + o + a) crc :=
  rewritten_write h (length_crc machine crc) ha

/-- The checksum of the header, in the block and on the device. -/
private theorem rewritten_sealTag (machine : Endian) : rewritten d m pos (sealTag machine block o) =
    sealTag machine (rewritten d m pos block) (pos + o) := by
  have hbytes : bytesAt (rewritten d m pos block) (pos + o + 0) headerCrcAt =
      bytesAt block (o + 0) headerCrcAt := bytesAt_rewritten h (by decide)
  rw [Nat.add_zero, Nat.add_zero] at hbytes
  rw [sealTag, sealTag, hbytes]
  exact rewritten_storeCrc h machine (by decide) _

/-- What is written to the block is the tag that is fixed on the device. -/
private theorem rewritten_fixTag (machine : Endian) : rewritten d m pos (fixTag machine block o) =
    fixTag machine (rewritten d m pos block) (pos + o) := by
  rw [fixTag, fixTag, rewritten_sealTag h, rewritten_storeCrc h machine (by decide),
    rewritten_copyCrc h (by decide), rewritten_copyCrc h (by decide), rewritten_copyLength h,
    rewritten_clearRootLength h]

end Block

/-! ### The property -/

/-- A call on a device. -/
structure Call (w : Nat) where
  machine : Endian
  env : Env w
  d : MtdDev
  offset : BitVec w

/-- The device behind a run. -/
def finalFd : Except Stop Fd → Option Fd
  | .ok fd => some fd
  | .error (.exit fd) => some fd
  | .error .fault => none

namespace Call

variable (c : Call w) (m : Mem) (fd : Fd)

def run : Except Stop Fd := mtdFixtrx c.machine c.env c.d fd c.offset

/-- Where the tag is on the device. -/
def pos : Nat := c.offset.toNat

/-- The block of the offset has room for a tag. -/
def Room : Prop := c.pos < c.d.size ∧ c.pos % c.d.erasesize + sizeofTag ≤ c.d.erasesize

def CrcRight : Prop :=
  (Crc.accumulate crcStart (bytesAt m c.pos headerCrcAt)).toNat = loadHeaderCrc c.machine m c.pos

/-- What a fixed tag has. -/
structure Fixed : Prop where
  headerCrc : c.CrcRight m
  rootLength : number w (lengthField m c.pos rootLengthAt) = 0
  totalLength : number w (lengthField m c.pos totalLengthAt) =
    number w (lengthField m c.pos kernelLengthAt)
  imageCrc : crcField m c.pos imageCrcAt = crcField m c.pos kernelCrcAt
  fskernelCrc : crcField m c.pos fskernelCrcAt = crcField m c.pos kernelCrcAt

/-- The call returns 0, the tag is fixed, nothing else has changed, and another call changes
nothing. -/
def Fixes : Prop :=
  ∃ fd', c.run fd = .ok fd' ∧ c.Fixed fd'.mem ∧
    (∀ x, x < c.pos ∨ c.pos + sizeofTag ≤ x → fd'.mem x = fd.mem x) ∧
    ∃ fd'', finalFd (c.run fd') = some fd'' ∧ fd''.mem = fd'.mem

/-- A tag with a right checksum is fixed wherever it is; with a wrong one nothing is erased or
written. -/
def Works : Prop :=
  c.Room →
    (c.CrcRight fd.mem → number w (lengthField fd.mem c.pos cfeLengthAt) = 0 → c.Fixes fd) ∧
      (¬c.CrcRight fd.mem → finalFd (c.run fd) = some fd)

/-! ### The condition -/

/-- The block of the offset can be loaded. -/
def Loads : Prop := MtdFix.Loads c.env c.d (blockOffset c.env c.offset)

/-- Where the tag is in its block. -/
def inBlock : Nat := MtdFix.inBlock c.env c.offset

/-- The bytes of the device from this offset on have the checksum of the tag. -/
def CrcAgrees : Prop :=
  (computeCrc32 c.env c.d fd crcStart c.inBlock headerCrcAt).toNat =
    loadHeaderCrc c.machine fd.mem c.pos

instance : Decidable (c.CrcAgrees fd) := inferInstanceAs (Decidable (_ = _))

/-- A tag with a right checksum is fixed. -/
structure Accepts : Prop where
  loads : c.Loads
  crc_in : c.inBlock + headerCrcAt + 4 ≤ c.d.erasesize
  crc : c.CrcAgrees fd
  kept : strntoul c.env (lengthField fd.mem c.pos rootLengthAt) = 0 → c.Fixed fd.mem
  rewrite : strntoul c.env (lengthField fd.mem c.pos rootLengthAt) ≠ 0 →
    CanRewrite c.d (blockOffset c.env c.offset).toNat

/-- A tag with a wrong checksum is refused. -/
structure Refuses : Prop where
  cfe_in : c.inBlock + cfeLengthAt + imageLen ≤ c.d.erasesize
  crc_in : strntoul c.env (lengthField fd.mem c.pos cfeLengthAt) = 0 →
    c.inBlock + headerCrcAt + 4 ≤ c.d.erasesize
  crc : strntoul c.env (lengthField fd.mem c.pos cfeLengthAt) = 0 → c.CrcAgrees fd →
    strntoul c.env (lengthField fd.mem c.pos rootLengthAt) ≠ 0 →
    ¬CanErase c.d (blockOffset c.env c.offset).toNat

variable {c m fd}

/-! ### A call -/

/-- The fix does what it is for. -/
private theorem fixed_fixTag : c.Fixed (fixTag c.machine m c.pos) where
  headerCrc := loadHeaderCrc_fixTag c.machine m c.pos
  rootLength := number_rootLength_fixTag c.machine m c.pos w
  totalLength := by
    rw [totalLength_fixTag, kernelLength_fixTag, number_strncpy w (length_lengthField _ _ _)]
  imageCrc := by rw [imageCrc_fixTag, kernelCrc_fixTag]
  fskernelCrc := by rw [fskernelCrc_fixTag, kernelCrc_fixTag]

/-- A number that is zero is read as zero. -/
private theorem strntoul_eq_zero (env : Env w) {str : List UInt8} (h : number w str = 0) :
    strntoul env str = 0 := by
  rw [strntoul]
  split
  · exact h
  · rfl

/-- The position is the start of its block and what is behind it. -/
private theorem blockOffset_add (c : Call w) :
    (blockOffset c.env c.offset).toNat + c.inBlock = c.pos :=
  blockOffset_add_inBlock c.env c.offset

/-- A block that cannot be loaded leads to exit. -/
theorem run_exit_of_loads (h : ¬c.Loads) : c.run fd = .error (.exit fd) := by
  rw [run, mtdFixtrx, loadBlock_exit h]
  rfl

section Loaded

variable (hloads : c.Loads)

include hloads

/-- The run with a block that was loaded, check by check. -/
theorem run_eq : c.run fd =
    if c.d.erasesize < c.inBlock + cfeLengthAt + imageLen then .error .fault
    else if strntoul c.env (lengthField fd.mem c.pos cfeLengthAt) ≠ 0 then .error (.exit fd)
    else if c.d.erasesize < c.inBlock + headerCrcAt + 4 then .error .fault
    else if ¬c.CrcAgrees fd then .error (.exit fd)
    else if strntoul c.env (lengthField fd.mem c.pos rootLengthAt) = 0 then .ok fd
    else rewriteBlock c.d fd (blockOffset c.env c.offset).toNat
      (fixTag c.machine (fun i => fd.mem ((blockOffset c.env c.offset).toNat + i)) c.inBlock) := by
  have hfield (pos : Nat) :
      lengthField (fun i => fd.mem ((blockOffset c.env c.offset).toNat + i)) c.inBlock pos =
        lengthField fd.mem c.pos pos := by
    simp only [lengthField, bytesAt, ← Nat.add_assoc, blockOffset_add]
  have hcrc : loadHeaderCrc c.machine
      (fun i => fd.mem ((blockOffset c.env c.offset).toNat + i)) c.inBlock =
        loadHeaderCrc c.machine fd.mem c.pos := by
    simp only [loadHeaderCrc, ← Nat.add_assoc, blockOffset_add]
  rw [run, mtdFixtrx, loadBlock_ok hloads, ok_bind]
  simp only [inBlock_eq]
  -- the checks in the order of the source, on the loaded block; it holds what the device holds
  change (if c.d.erasesize < c.inBlock + cfeLengthAt + imageLen then _ else
    if strntoul c.env (lengthField (fun i => fd.mem ((blockOffset c.env c.offset).toNat + i))
      c.inBlock cfeLengthAt) ≠ 0 then _ else
    if c.d.erasesize < c.inBlock + headerCrcAt + 4 then _ else
    if (computeCrc32 c.env c.d fd crcStart c.inBlock headerCrcAt).toNat ≠ loadHeaderCrc c.machine
      (fun i => fd.mem ((blockOffset c.env c.offset).toNat + i)) c.inBlock then _ else
    if strntoul c.env (lengthField (fun i => fd.mem ((blockOffset c.env c.offset).toNat + i))
      c.inBlock rootLengthAt) = 0 then _ else _) = _
  rw [hfield, hfield, hcrc]
  rfl

omit hloads in

/-- Where the checksum of the header is in the block, the length of the CFE is. -/
private theorem cfe_in_of_crc_in (hin : c.inBlock + headerCrcAt + 4 ≤ c.d.erasesize) :
    ¬c.d.erasesize < c.inBlock + cfeLengthAt + imageLen := by
  simp only [cfeLengthAt, imageLen, headerCrcAt] at hin ⊢
  omega

section Agrees

variable (hcfe : strntoul c.env (lengthField fd.mem c.pos cfeLengthAt) = 0)
  (hin : c.inBlock + headerCrcAt + 4 ≤ c.d.erasesize)

include hcfe hin

/-- A wrong checksum leads to exit. -/
theorem run_exit_of_crc (h : ¬c.CrcAgrees fd) : c.run fd = .error (.exit fd) := by
  rw [run_eq hloads, if_neg (cfe_in_of_crc_in hin), if_neg (not_not.mpr hcfe),
    if_neg (by omega), if_pos h]

/-- With the right checksum the tag is kept or replaced. -/
theorem run_of_crc (h : c.CrcAgrees fd) : c.run fd =
    if strntoul c.env (lengthField fd.mem c.pos rootLengthAt) = 0 then .ok fd
    else rewriteBlock c.d fd (blockOffset c.env c.offset).toNat
      (fixTag c.machine (fun i => fd.mem ((blockOffset c.env c.offset).toNat + i)) c.inBlock) := by
  rw [run_eq hloads, if_neg (cfe_in_of_crc_in hin), if_neg (not_not.mpr hcfe),
    if_neg (by omega), if_neg (not_not.mpr h)]

end Agrees

/-- The tag that was fixed is not fixed again. -/
theorem run_fixTag (hcfe : number w (lengthField fd.mem c.pos cfeLengthAt) = 0)
    (hin : c.inBlock + headerCrcAt + 4 ≤ c.d.erasesize) {fd' : Fd}
    (hfd' : fd'.mem = fixTag c.machine fd.mem c.pos) : finalFd (c.run fd') = some fd' := by
  have hcfe' : strntoul c.env (lengthField fd'.mem c.pos cfeLengthAt) = 0 := by
    rw [hfd', cfeLength_fixTag]
    exact strntoul_eq_zero c.env hcfe
  -- the second run finds the tag fixed, or stops at the checksum
  by_cases hcrc : c.CrcAgrees fd'
  · have hroot : strntoul c.env (lengthField fd'.mem c.pos rootLengthAt) = 0 := by
      rw [hfd']
      exact strntoul_eq_zero c.env (number_rootLength_fixTag c.machine fd.mem c.pos w)
    rw [run_of_crc hloads hcfe' hin hcrc, if_pos hroot]
    rfl
  · rw [run_exit_of_crc hloads hcfe' hin hcrc]
    rfl

omit hloads in
/-- The tag ends in the block. -/
private theorem inBlock_add_sizeofTag_le (hroom : c.Room)
    (hin : c.inBlock + headerCrcAt + 4 ≤ c.d.erasesize)
    (hmod : (blockOffset c.env c.offset).toNat % c.d.erasesize = 0) :
    c.inBlock + sizeofTag ≤ c.d.erasesize := by
  have hadd := c.blockOffset_add
  obtain ⟨q, hq⟩ := Nat.dvd_of_mod_eq_zero hmod
  have hle := hroom.2
  rw [← hadd, hq, Nat.mul_add_mod, Nat.mod_eq_of_lt (by omega)] at hle
  exact hle

end Loaded

/-! ### When a tag is fixed -/

/-- Under the condition the run does what it is for. -/
theorem fixes_of_accepts (hroom : c.Room)
    (hcfe : number w (lengthField fd.mem c.pos cfeLengthAt) = 0) (h : c.Accepts fd) :
    c.Fixes fd := by
  obtain ⟨hloads, hin, hcrc, hkept, hrewrite⟩ := h
  have hrun := run_of_crc hloads (strntoul_eq_zero c.env hcfe) hin hcrc
  -- without a root filesystem in the tag nothing is written
  by_cases hroot : strntoul c.env (lengthField fd.mem c.pos rootLengthAt) = 0
  · rw [if_pos hroot] at hrun
    exact ⟨fd, hrun, hkept hroot, fun _ _ => rfl, fd, by rw [hrun]; rfl, rfl⟩
  · have hcan := hrewrite hroot
    have hsize : 0 < c.d.size := by
      have hlt := hroom.1
      omega
    obtain ⟨fd', hwrite, hmem⟩ := rewriteBlock_ok fd
      (fixTag c.machine (fun i => fd.mem ((blockOffset c.env c.offset).toNat + i)) c.inBlock) hcan (hloads.end_le hsize)
    rw [if_neg hroot, hwrite] at hrun
    rw [rewritten_fixTag (inBlock_add_sizeofTag_le hroom hin hcan.1.1), rewritten_self,
      blockOffset_add] at hmem
    refine ⟨fd', hrun, ?_, ?_, fd', run_fixTag hloads hcfe hin hmem, rfl⟩
    · rw [hmem]
      exact fixed_fixTag
    · intro x hx
      rw [hmem]
      exact fixTag_of_outside c.machine fd.mem c.pos hx

/-- A run that does what it is for meets the condition. -/
theorem accepts_of_fixes (hroom : c.Room)
    (hcfe : number w (lengthField fd.mem c.pos cfeLengthAt) = 0) (h : c.Fixes fd) :
    c.Accepts fd := by
  obtain ⟨fd', hrun, hfixed, -⟩ := h
  -- a header that is not read ends the call
  have hloads : c.Loads := by
    by_contra hloads
    rw [run_exit_of_loads hloads] at hrun
    cases hrun
  have hcfe' := strntoul_eq_zero c.env hcfe
  have hin : c.inBlock + headerCrcAt + 4 ≤ c.d.erasesize := by
    by_contra hin
    rw [run_eq hloads] at hrun
    split at hrun
    · cases hrun
    · rw [if_neg (not_not.mpr hcfe'), if_pos (by omega)] at hrun
      cases hrun
  -- each check that fails ends the call with another status
  have hcrc : c.CrcAgrees fd := by
    by_contra hcrc
    rw [run_exit_of_crc hloads hcfe' hin hcrc] at hrun
    cases hrun
  rw [run_of_crc hloads hcfe' hin hcrc] at hrun
  refine ⟨hloads, hin, hcrc, fun hroot => ?_, fun hroot => ?_⟩
  · rw [if_pos hroot] at hrun
    cases hrun
    exact hfixed
  · by_contra hcan
    have hsize : 0 < c.d.size := by
      have hlt := hroom.1
      omega
    have hend := hloads.end_le hsize
    have hpos := c.d.erasesize_pos
    obtain ⟨fd'', hexit⟩ := rewriteBlock_exit fd
      (fixTag c.machine (fun i => fd.mem ((blockOffset c.env c.offset).toNat + i)) c.inBlock)
      hcan (by omega)
    rw [if_neg hroot, hexit] at hrun
    cases hrun

/-- The device is kept exactly if the tag is refused. -/
theorem untouched_iff_refuses (hroom : c.Room) (hloads : c.Loads) :
    finalFd (c.run fd) = some fd ↔ c.Refuses fd := by
  have hsize : 0 < c.d.size := by
    have hlt := hroom.1
    omega
  have hend := hloads.end_le hsize
  have hpos := c.d.erasesize_pos
  constructor
  · intro h
    -- a length field outside the block is read behind it
    have hcfe : c.inBlock + cfeLengthAt + imageLen ≤ c.d.erasesize := by
      by_contra hcfe
      rw [run_eq hloads, if_pos (by omega)] at h
      cases h
    have hin : strntoul c.env (lengthField fd.mem c.pos cfeLengthAt) = 0 →
        c.inBlock + headerCrcAt + 4 ≤ c.d.erasesize := by
      intro hzero
      by_contra hin
      rw [run_eq hloads, if_neg (by omega), if_neg (not_not.mpr hzero), if_pos (by omega)] at h
      cases h
    -- past all checks the block is erased, so the flash differs whether the write works or not
    refine ⟨hcfe, hin, fun hzero hcrc hroot herase => ?_⟩
    rw [run_of_crc hloads hzero (hin hzero) hcrc, if_neg hroot] at h
    obtain ⟨hok, hexit⟩ := rewriteBlock_erased fd
      (fixTag c.machine (fun i => fd.mem ((blockOffset c.env c.offset).toNat + i)) c.inBlock)
      herase (by omega)
    cases hwrite : rewriteBlock c.d fd (blockOffset c.env c.offset).toNat (fixTag c.machine
        (fun i => fd.mem ((blockOffset c.env c.offset).toNat + i)) c.inBlock) with
    | ok fd' =>
      rw [hwrite, finalFd, Option.some.injEq] at h
      rw [hwrite, h] at hok
      exact hok rfl
    | error stop =>
      cases stop with
      | fault =>
        rw [hwrite] at h
        cases h
      | exit fd' =>
        rw [hwrite, finalFd, Option.some.injEq] at h
        rw [hwrite, h] at hexit
        exact hexit rfl
  -- each way to refuse returns before the block is erased
  · rintro ⟨hcfe, hin, hcrc⟩
    by_cases hzero : strntoul c.env (lengthField fd.mem c.pos cfeLengthAt) = 0
    · by_cases hagrees : c.CrcAgrees fd
      · rw [run_of_crc hloads hzero (hin hzero) hagrees]
        split
        · rfl
        · next hroot =>
          rw [rewriteBlock_not_erased _ (hcrc hzero hagrees hroot) (by omega)]
          rfl
      · rw [run_exit_of_crc hloads hzero (hin hzero) hagrees]
        rfl
    · rw [run_eq hloads, if_neg (by omega), if_pos hzero]
      rfl

variable (c fd)

/-- A call does what it is for exactly if it accepts a tag with a right checksum and refuses one
with a wrong checksum. -/
theorem works_iff_accepts : c.Works fd ↔ (c.Room →
    (c.CrcRight fd.mem → number w (lengthField fd.mem c.pos cfeLengthAt) = 0 → c.Accepts fd) ∧
      (¬c.CrcRight fd.mem → c.Loads → c.Refuses fd)) := by
  apply imp_congr_right
  intro hroom
  apply and_congr
  · apply imp_congr_right
    intro _
    apply imp_congr_right
    intro hcfe
    exact ⟨accepts_of_fixes hroom hcfe, fixes_of_accepts hroom hcfe⟩
  · apply imp_congr_right
    intro _
    by_cases hloads : c.Loads
    -- loaded, the tag is refused exactly when the flash is kept
    · rw [untouched_iff_refuses hroom hloads]
      exact ⟨fun h _ => h, fun h => h hloads⟩
    · rw [run_exit_of_loads hloads]
      exact iff_of_true rfl fun h => absurd h hloads

end Call

/-! ### A tag behind the first block -/

private theorem smallBlocks_pos : 0 < 256 := by decide

private theorem smallBlocks_dvd : 256 ∣ 512 := by decide

private theorem smallBlocks_lt : 512 < 2 ^ 32 := by decide

def smallBlocks : MtdDev where
  mtdtype := .other
  erasesize := 256
  size := 512
  bad := fun _ => false
  eraseFault := fun _ => false
  writeFault := fun _ => none
  erasesize_pos := smallBlocks_pos
  size_dvd := smallBlocks_dvd
  size_lt := smallBlocks_lt

/-- `-o 256`, while the global `erasesize` is still 0. -/
def behindBlock : Call 32 := ⟨.big, goodEnv 0, smallBlocks, 256⟩

/-- A tag with its checksum, and 0 elsewhere. -/
def tagMem : Mem := sealTag .big (fun _ => 0) 256

/-- The tag is looked for behind the block buffer. -/
theorem behindBlock_not_works : ¬behindBlock.Works ⟨0, tagMem, []⟩ := by
  intro h
  have hcrc : behindBlock.CrcRight tagMem := loadHeaderCrc_sealTag .big _ 256
  have hcfe : number 32 (lengthField tagMem 256 cfeLengthAt) = 0 := by
    rw [tagMem, sealTag, lengthField, storeCrc,
      bytesAt_writeBytes_field _ 256 (length_crc .big _) (by decide)]
    decide
  obtain ⟨hfixes, -⟩ := h ⟨by decide, by decide⟩
  have haccepts := Call.accepts_of_fixes ⟨by decide, by decide⟩ hcfe (hfixes hcrc hcfe)
  have hin := haccepts.crc_in
  exact absurd hin (by decide)

end HandsomeMod.Native.MtdImagetag
