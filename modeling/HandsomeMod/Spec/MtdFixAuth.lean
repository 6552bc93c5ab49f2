import HandsomeMod.Spec.MtdFixBlock

/-!
# When a fixed header is authentic

The image is read from where the header is in its block, not from where it is on the device, and
what cannot be read is reported as fixed. `Fixable` is when that does no harm.
-/

namespace HandsomeMod.Native.MtdFix

open ForStd Mtd

variable {w : Nat}

/-! ### Headers that are replaced -/

namespace Header

variable (h : Header) (m : Mem) (pos : Nat)

/-- The magic is read of a block as on the device. -/
private theorem loadMagic_block (bo o : Nat) :
    h.loadMagic (fun i => m (bo + i)) o = h.loadMagic m (bo + o) := by
  simp only [loadMagic, Nat.add_assoc]

/-- The size is read of a block as on the device. -/
private theorem loadSize_block (bo o : Nat) :
    h.loadSize (fun i => m (bo + i)) o = h.loadSize m (bo + o) := by
  simp only [loadSize, Nat.add_assoc]

/-- The size of the meta data is read of a block as on the device. -/
private theorem loadMetasize_block (bo o : Nat) :
    h.loadMetasize (fun i => m (bo + i)) o = h.loadMetasize m (bo + o) := by
  simp only [loadMetasize, Nat.add_assoc]

/-- The authenticated bytes are read of a block as on the device. -/
private theorem loadAuth_block (bo o : Nat) :
    h.loadAuth (fun i => m (bo + i)) o = h.loadAuth m (bo + o) := by
  simp only [loadAuth, bytesAt, Nat.add_assoc]

/-- The digest is read of a block as on the device. -/
private theorem loadDigest_block (bo o : Nat) :
    h.loadDigest (fun i => m (bo + i)) o = h.loadDigest m (bo + o) := by
  simp only [loadDigest, bytesAt, Nat.add_assoc]

/-- The size has 32 bits. -/
private theorem loadSize_lt : h.loadSize m pos < 2 ^ 32 := h.sizeOrder.load_lt 4 _

variable {m pos} {size : Nat} {digest : List UInt8} (hdigest : digest.length = 16)

include hdigest

/-- All but the size and the digest stays. -/
private theorem store_of_other {x : Nat} (hsize : x < pos + h.sizeAt ∨ pos + h.sizeAt + 4 ≤ x)
    (hx : x < pos + h.digestAt ∨ pos + h.digestAt + 16 ≤ x) :
    h.store m pos size digest x = m x := by
  have hlen := length_bytesAt (h.sizeOrder.store 4 size) 0 4
  rw [store, writeBytes, if_neg (by omega), writeBytes, if_neg (by omega)]

/-- Storing size and digest keeps the magic. -/
private theorem loadMagic_store : h.loadMagic (h.store m pos size digest) pos = h.loadMagic m pos
    := by
  obtain ⟨hmagic, -, hauth, hdig, -⟩ := h.ordered
  apply Endian.load_congr
  intro i hi
  exact h.store_of_other hdigest (.inl (by omega)) (.inl (by omega))

/-- Storing size and digest keeps the size of the meta data. -/
private theorem loadMetasize_store :
    h.loadMetasize (h.store m pos size digest) pos = h.loadMetasize m pos := by
  obtain ⟨-, hmeta, hauth, hdig, -⟩ := h.ordered
  rw [loadMetasize, loadMetasize]
  cases hat : h.metasizeAt with
  | none => rfl
  | some p =>
    have hp := hmeta p hat
    apply Endian.load_congr
    intro i hi
    exact h.store_of_other hdigest (.inl (by omega)) (.inl (by omega))

/-- Storing size and digest keeps the authenticated bytes. -/
private theorem loadAuth_store : h.loadAuth (h.store m pos size digest) pos = h.loadAuth m pos := by
  obtain ⟨-, -, hauth, hdig, -⟩ := h.ordered
  apply bytesAt_congr
  intro i hi
  exact h.store_of_other hdigest (.inr (by omega)) (.inl (by omega))

/-- The digest that was stored is read again. -/
private theorem loadDigest_store : h.loadDigest (h.store m pos size digest) pos = digest :=
  bytesAt_writeBytes_eq _ hdigest

omit hdigest in

/-- The size that was stored is read again. -/
private theorem loadSize_store (hsize : size < 2 ^ 32) :
    h.loadSize (h.store m pos size digest) pos = size := by
  obtain ⟨-, -, hauth, hdig, -⟩ := h.ordered
  have hlen := length_bytesAt (h.sizeOrder.store 4 size) 0 4
  have hstore : ∀ i < 4, h.store m pos size digest (pos + h.sizeAt + i) =
      h.sizeOrder.store 4 size i := by
    intro i hi
    rw [store, writeBytes_of_lt _ (by omega), writeBytes_add _ _ (by omega), getD_bytesAt _ _ hi,
      Nat.zero_add]
  exact (Endian.load_congr h.sizeOrder hstore).trans (Endian.load_store h.sizeOrder hsize)

/-- Storing size and digest does not move the data. -/
private theorem dataOffset_store :
    h.dataOffset (h.store m pos size digest) pos = h.dataOffset m pos := by
  rw [dataOffset, dataOffset, h.loadMetasize_store hdigest]

/-- The image is not part of the header. -/
private theorem bytesAt_store_image (n : Nat) :
    bytesAt (h.store m pos size digest) (h.dataOffset m pos) n =
      bytesAt m (h.dataOffset m pos) n := by
  obtain ⟨-, -, hauth, hdig, hsizeof⟩ := h.ordered
  apply bytesAt_congr
  intro i hi
  rw [dataOffset]
  exact h.store_of_other hdigest (.inr (by omega)) (.inr (by omega))

end Header

/-- The size that is asked for. -/
def asked (d : MtdDev) (dataOffset : Nat) (dataSize : BitVec w) : Nat :=
  (if dataSize = 0 then sizeT w (mtdsize d) - BitVec.ofNat w dataOffset else dataSize).toNat

/-- The new size is the one that was asked for, or the stored one if it is less. -/
private theorem newSize_eq (d : MtdDev) (dataOffset : Nat) (dataSize : BitVec w) (size : Nat) :
    newSize d dataOffset dataSize size = min (asked d dataOffset dataSize) size := by
  change (if asked d dataOffset dataSize > size then size else asked d dataOffset dataSize) = _
  split
  · omega
  · omega

/-! ### The property -/

/-- The three formats; a size of `wrgg` is in the order of the machine. -/
inductive Format where
  | seama
  | wrg
  | wrgg (machine : Endian)

def Format.header : Format → Header
  | .seama => seamaHeader
  | .wrg => wrgHeader
  | .wrgg machine => wrggHeader machine

variable (md5 : List UInt8 → Digest)

def Format.fix : Format → Env w → MtdDev → Fd → BitVec w → BitVec w → Except Stop Fd
  | .seama => mtdFixseama md5
  | .wrg => mtdFixwrg md5
  | .wrgg machine => mtdFixwrgg md5 machine

/-- A call on a device. -/
structure Call (w : Nat) where
  format : Format
  env : Env w
  d : MtdDev
  offset : BitVec w
  dataSize : BitVec w

/-- There is memory for the bytes, and they can be read. -/
def CanBuffer (env : Env w) (d : MtdDev) (pos n : Nat) : Prop :=
  env.malloc n = true ∧ env.pread d pos n = n

/-- The memory of the device behind a run. -/
def finalMem : Except Stop Fd → Option Mem
  | .ok fd => some fd.mem
  | .error (.exit fd) => some fd.mem
  | .error .fault => none

namespace Call

variable (c : Call w) (m : Mem)

def run (fd : Fd) : Except Stop Fd := c.format.fix md5 c.env c.d fd c.offset c.dataSize

def header : Header := c.format.header

/-- Where the header is on the device. -/
def pos : Nat := c.offset.toNat

/-- A header with an image. -/
structure ValidHeader : Prop where
  inside : c.pos + c.header.sizeof ≤ c.d.size
  magic : c.header.loadMagic m c.pos = c.header.magic
  size_ne : c.header.loadSize m c.pos ≠ 0

/-- Where the image is on the device. -/
def imageOffset : Nat := c.header.dataOffset m c.pos

/-- The size that is asked for, at most the old one and what is left on the device. -/
def clamped : Nat :=
  let left := c.d.size - c.imageOffset m
  min (min (if c.dataSize.toNat = 0 then left else c.dataSize.toNat)
    (c.header.loadSize m c.pos)) left

/-- There is memory for the image, and it can be read. -/
def ImageReads : Prop := CanBuffer c.env c.d (c.imageOffset m) (c.clamped m)

/-- The digest with `n` bytes at `start`. -/
def digest (start n : Nat) : List UInt8 :=
  (md5 (c.header.loadAuth m c.pos ++ bytesAt m start n)).val

/-- A digest has 16 bytes. -/
private theorem length_digest (start n : Nat) : (c.digest md5 m start n).length = 16 :=
  (md5 (c.header.loadAuth m c.pos ++ bytesAt m start n)).property

/-- The header has size `n` and the digest of the bytes behind it. -/
structure Authentic (n : Nat) : Prop where
  size : c.header.loadSize m c.pos = n
  digest : c.header.loadDigest m c.pos = c.digest md5 m (c.imageOffset m) n

/-- The bytes outside of the size and the digest are the same. -/
def SameElse (m' : Mem) : Prop :=
  ∀ x, (x < c.pos + c.header.sizeAt ∨ c.pos + c.header.sizeAt + 4 ≤ x) →
    (x < c.pos + c.header.digestAt ∨ c.pos + c.header.digestAt + 16 ≤ x) → m' x = m x

/-- If 0 is returned, the header is authentic, nothing else has changed, and nothing changes if it
is fixed again. An image that cannot be read is not reported as fixed. -/
structure Reauthenticates (fd : Fd) : Prop where
  no_fault : c.run md5 fd ≠ .error .fault
  authentic : ∀ fd', c.run md5 fd = .ok fd' → c.Authentic md5 fd'.mem (c.clamped fd.mem)
  same : ∀ fd', c.run md5 fd = .ok fd' → c.SameElse fd.mem fd'.mem
  again : ∀ fd', c.run md5 fd = .ok fd' → finalMem (c.run md5 fd') = some fd'.mem
  readable : ∀ fd', c.run md5 fd = .ok fd' → c.ImageReads fd.mem

/-! ### The condition -/

/-- The block of the header can be loaded. -/
def Loads : Prop := MtdFix.Loads c.env c.d (blockOffset c.env c.offset)

/-- Where the header is in its block. -/
def inBlock : Nat := MtdFix.inBlock c.env c.offset

/-- Where the image is read. -/
def readOffset : Nat := c.inBlock + c.header.sizeof + c.header.loadMetasize m c.pos

/-- How many bytes are read. -/
def readSize : Nat := newSize c.d (c.readOffset m) c.dataSize (c.header.loadSize m c.pos)

/-- There is memory for what is read, and it can be read. -/
def Reads : Prop := CanBuffer c.env c.d (c.readOffset m) (c.readSize m)

/-- The digest with what is read in place of the image. -/
def readDigest : List UInt8 := c.digest md5 m (c.readOffset m) (c.readSize m)

/-- The digest of what is read has 16 bytes. -/
private theorem length_readDigest : (c.readDigest md5 m).length = 16 := c.length_digest md5 m _ _

/-- The header is replaced. -/
def replaced : Mem := c.header.store m c.pos (c.readSize m) (c.readDigest md5 m)

/-- When the header in a block that can be loaded is fixed. -/
structure Fixable : Prop where
  /-- The size is in the block. -/
  size_in : c.inBlock + c.header.sizeAt + 4 ≤ c.d.erasesize
  /-- The header is in the block, if the digest is looked at. -/
  digest_in : c.Reads m → c.inBlock + c.header.sizeof ≤ c.d.erasesize
  /-- If the header stays, the image can be read and has the size and the digest. -/
  kept : (c.Reads m → c.readDigest md5 m = c.header.loadDigest m c.pos) →
    c.ImageReads m ∧ c.Authentic md5 m (c.clamped m)
  /-- If it is replaced, the image can be read, and what was read has the size and the digest of
  the image, and has the digest also behind the change. -/
  replaced : c.Reads m → c.readDigest md5 m ≠ c.header.loadDigest m c.pos →
    CanRewrite c.d (blockOffset c.env c.offset).toNat →
    c.ImageReads m ∧ c.readSize m = c.clamped m ∧
      c.readDigest md5 m = c.digest md5 m (c.imageOffset m) (c.readSize m) ∧
      (c.readSize m = 0 ∨
        c.digest md5 (c.replaced md5 m) (c.readOffset m) (c.readSize m) = c.readDigest md5 m)

/-! ### A call -/

section Run

/-- The three formats share one program. -/
private theorem fix_eq (f : Format) : f.fix md5 (w := w) = mtdFix md5 f.header := by
  cases f with
  | seama => rfl
  | wrg => rfl
  | wrgg machine => rfl

variable {c m} {fd : Fd}

/-- The position is the start of its block and what is behind it. -/
private theorem blockOffset_add (c : Call w) :
    (blockOffset c.env c.offset).toNat + c.inBlock = c.pos :=
  blockOffset_add_inBlock c.env c.offset

/-- What a call does behind the checks of the header. -/
def behindChecks (c : Call w) (fd : Fd) : Except Stop Fd := do
  match ← fixMd5 md5 c.header c.env c.d fd
    (fun i => fd.mem ((blockOffset c.env c.offset).toNat + i)) c.inBlock (c.readOffset fd.mem)
    (c.readSize fd.mem) with
  | none => return fd
  | some block => rewriteBlock c.d fd (blockOffset c.env c.offset).toNat block

/-- A block that cannot be loaded leads to exit. -/
theorem run_exit_of_loads (fd : Fd) (h : ¬c.Loads) : c.run md5 fd = .error (.exit fd) := by
  rw [run, fix_eq, mtdFix, loadBlock_exit h]
  rfl

variable (hloads : c.Loads)

include hloads

/-- The run with a block that was loaded, check by check. -/
theorem run_eq : c.run md5 fd =
    if c.d.erasesize < c.inBlock + c.header.magicAt + 4 then .error .fault
    else if c.header.loadMagic fd.mem c.pos ≠ c.header.magic then .error (.exit fd)
    else if c.d.erasesize < c.inBlock + c.header.sizeAt + 4 then .error .fault
    else if c.header.loadSize fd.mem c.pos = 0 then .error (.exit fd)
    else c.behindChecks md5 fd := by
  rw [run, fix_eq, mtdFix, loadBlock_ok hloads, ok_bind]
  simp only [inBlock_eq, Header.loadMagic_block, Header.loadSize_block, Header.dataOffset,
    Header.loadMetasize_block, blockOffset_add_inBlock]
  rfl

/-- A size that crosses the end of the block is read behind the buffer. -/
theorem run_fault_of_size (hvalid : c.ValidHeader fd.mem)
    (h : c.d.erasesize < c.inBlock + c.header.sizeAt + 4) : c.run md5 fd = .error .fault := by
  rw [run_eq md5 hloads]
  by_cases hmagic : c.d.erasesize < c.inBlock + c.header.magicAt + 4
  · rw [if_pos hmagic]
  · rw [if_neg hmagic, if_neg (not_not.mpr hvalid.magic), if_pos h]

section Checked

variable (hvalid : c.ValidHeader fd.mem) (hsize : c.inBlock + c.header.sizeAt + 4 ≤ c.d.erasesize)

include hvalid hsize

/-- A valid header passes the checks. -/
theorem run_behindChecks : c.run md5 fd = c.behindChecks md5 fd := by
  have hmagic := c.header.ordered.1
  rw [run_eq md5 hloads, if_neg (by omega), if_neg (not_not.mpr hvalid.magic), if_neg (by omega),
    if_neg hvalid.size_ne]

/-- A digest that crosses the end of the block is read behind the buffer. -/
theorem run_fault_of_digest (hreads : c.Reads fd.mem)
    (h : c.d.erasesize < c.inBlock + c.header.sizeof) : c.run md5 fd = .error .fault := by
  rw [run_behindChecks md5 hloads hvalid hsize, behindChecks, fixMd5,
    if_neg (by rw [hreads.1]; decide), if_neg (not_not.mpr hreads.2), if_pos h]
  rfl

/-- Behind the checks the digests are compared. -/
private theorem fixMd5_eq (hreads : c.Reads fd.mem)
    (hin : c.inBlock + c.header.sizeof ≤ c.d.erasesize) :
    c.run md5 fd = if c.readDigest md5 fd.mem = c.header.loadDigest fd.mem c.pos then .ok fd
      else rewriteBlock c.d fd (blockOffset c.env c.offset).toNat
        (c.header.store (fun i => fd.mem ((blockOffset c.env c.offset).toNat + i)) c.inBlock
          (c.readSize fd.mem) (c.readDigest md5 fd.mem)) := by
  rw [run_behindChecks md5 hloads hvalid hsize, behindChecks, fixMd5,
    if_neg (by rw [hreads.1]; decide), if_neg (not_not.mpr hreads.2), if_neg (by omega)]
  simp only [Header.loadAuth_block, Header.loadDigest_block, blockOffset_add]
  change (if c.readDigest md5 fd.mem = c.header.loadDigest fd.mem c.pos then _ else _) >>= _ = _
  split
  · rfl
  · rfl

/-- The header stays if nothing is read, or if what is read has the digest. -/
theorem run_kept (hin : c.Reads fd.mem → c.inBlock + c.header.sizeof ≤ c.d.erasesize)
    (h : c.Reads fd.mem → c.readDigest md5 fd.mem = c.header.loadDigest fd.mem c.pos) :
    c.run md5 fd = .ok fd := by
  by_cases hreads : c.Reads fd.mem
  · rw [fixMd5_eq md5 hloads hvalid hsize hreads (hin hreads), if_pos (h hreads)]
  · rw [run_behindChecks md5 hloads hvalid hsize, behindChecks, fixMd5]
    split
    · rfl
    · next hmalloc =>
      rw [if_pos fun hpread => hreads ⟨Bool.of_not_eq_false hmalloc, hpread⟩]
      rfl

end Checked

omit hloads in
/-- What is written to the block is the header that is replaced on the device. -/
private theorem rewritten_store (hin : c.inBlock + c.header.sizeof ≤ c.d.erasesize) (m : Mem) :
    rewritten c.d m (blockOffset c.env c.offset).toNat
      (c.header.store (fun i => m ((blockOffset c.env c.offset).toNat + i)) c.inBlock
        (c.readSize m) (c.readDigest md5 m)) = c.replaced md5 m := by
  obtain ⟨-, -, hauth, hdig, hsizeof⟩ := c.header.ordered
  have hdigest := c.length_readDigest md5 m
  rw [Header.store, rewritten_writeBytes (by omega), rewritten_writeBytes
    (by rw [length_bytesAt]; omega), rewritten_self, ← Nat.add_assoc, ← Nat.add_assoc,
    blockOffset_add]
  rfl

section Replaced

variable (hvalid : c.ValidHeader fd.mem) (hreads : c.Reads fd.mem)
  (hin : c.inBlock + c.header.sizeof ≤ c.d.erasesize)
  (hne : c.readDigest md5 fd.mem ≠ c.header.loadDigest fd.mem c.pos)

include hvalid hreads hin hne

/-- A block that can be written gets the new header. -/
theorem run_replaced (hrewrite : CanRewrite c.d (blockOffset c.env c.offset).toNat) :
    ∃ fd', c.run md5 fd = .ok fd' ∧ fd'.mem = c.replaced md5 fd.mem := by
  obtain ⟨-, -, hauth, hdig, hsizeof⟩ := c.header.ordered
  have hinside := hvalid.inside
  have hend := hloads.end_le (by omega)
  rw [fixMd5_eq md5 hloads hvalid (by omega) hreads hin, if_neg hne, ← rewritten_store md5 hin]
  exact rewriteBlock_ok fd _ hrewrite hend

/-- A block that cannot be written leads to exit. -/
theorem run_exit_of_rewrite (hrewrite : ¬CanRewrite c.d (blockOffset c.env c.offset).toNat) :
    ∃ fd', c.run md5 fd = .error (.exit fd') := by
  obtain ⟨-, -, hauth, hdig, hsizeof⟩ := c.header.ordered
  have hinside := hvalid.inside
  have hend := hloads.end_le (by omega)
  have hpos := c.d.erasesize_pos
  rw [fixMd5_eq md5 hloads hvalid (by omega) hreads hin, if_neg hne]
  exact rewriteBlock_exit fd _ hrewrite (by omega)

end Replaced

/-! ### The header behind the change -/

section Again

omit hloads

/-- The size that is read for is not above the stored one. -/
private theorem readSize_le (c : Call w) (m : Mem) : c.readSize m ≤ c.header.loadSize m c.pos := by
  rw [readSize, newSize_eq]
  exact Nat.min_le_right _ _

/-- The new header has the size that was read for. -/
private theorem loadSize_replaced (c : Call w) (m : Mem) :
    c.header.loadSize (c.replaced md5 m) c.pos = c.readSize m :=
  c.header.loadSize_store ((c.readSize_le m).trans_lt (c.header.loadSize_lt m c.pos))

/-- The new header has the digest of what was read. -/
private theorem loadDigest_replaced (c : Call w) (m : Mem) :
    c.header.loadDigest (c.replaced md5 m) c.pos = c.readDigest md5 m :=
  c.header.loadDigest_store (c.length_readDigest md5 m)

/-- The new header does not move the data. -/
private theorem readOffset_replaced (c : Call w) (m : Mem) :
    c.readOffset (c.replaced md5 m) = c.readOffset m := by
  rw [readOffset, readOffset, replaced, c.header.loadMetasize_store (c.length_readDigest md5 m)]

/-- The size is clamped once. -/
private theorem readSize_replaced (c : Call w) (m : Mem) :
    c.readSize (c.replaced md5 m) = c.readSize m := by
  rw [readSize, readOffset_replaced, loadSize_replaced, readSize, newSize_eq, newSize_eq]
  omega

/-- Nor does it change whether the data can be read. -/
private theorem reads_replaced (c : Call w) (m : Mem) : c.Reads (c.replaced md5 m) ↔ c.Reads m := by
  rw [Reads, Reads, readOffset_replaced, readSize_replaced]

/-- The digest that is read behind the change. -/
private theorem readDigest_replaced (c : Call w) (m : Mem) : c.readDigest md5 (c.replaced md5 m) =
    c.digest md5 (c.replaced md5 m) (c.readOffset m) (c.readSize m) := by
  rw [readDigest, readOffset_replaced, readSize_replaced]

/-- The digest of the image does not change. -/
private theorem imageDigest_replaced (c : Call w) (m : Mem) (n : Nat) :
    c.digest md5 (c.replaced md5 m) (c.imageOffset (c.replaced md5 m)) n =
      c.digest md5 m (c.imageOffset m) n := by
  have hlen := c.length_readDigest md5 m
  rw [digest, digest, imageOffset, imageOffset, replaced,
    c.header.loadAuth_store hlen, c.header.dataOffset_store hlen,
    c.header.bytesAt_store_image hlen]

/-- The new header is valid. -/
private theorem validHeader_replaced (hvalid : c.ValidHeader m) (hne : c.readSize m ≠ 0) :
    c.ValidHeader (c.replaced md5 m) where
  inside := hvalid.inside
  magic := (c.header.loadMagic_store (c.length_readDigest md5 m)).trans hvalid.magic
  size_ne := by rwa [loadSize_replaced]

end Again

/-- The header that was replaced is fixed again. -/
theorem run_again_iff (hvalid : c.ValidHeader fd.mem) (hreads : c.Reads fd.mem)
    (hin : c.inBlock + c.header.sizeof ≤ c.d.erasesize)
    (hrewrite : CanRewrite c.d (blockOffset c.env c.offset).toNat) {fd' : Fd}
    (hfd' : fd'.mem = c.replaced md5 fd.mem) :
    finalMem (c.run md5 fd') = some fd'.mem ↔ c.readSize fd.mem = 0 ∨
      c.digest md5 (c.replaced md5 fd.mem) (c.readOffset fd.mem) (c.readSize fd.mem) =
        c.readDigest md5 fd.mem := by
  obtain ⟨hmagic, -, hauth, hdig, hsizeof⟩ := c.header.ordered
  -- a size 0 stops the second run before it reads the digest
  by_cases hzero : c.readSize fd.mem = 0
  · refine iff_of_true ?_ (.inl hzero)
    have hmagic' : c.header.loadMagic fd'.mem c.pos = c.header.magic := by
      rw [hfd', replaced, c.header.loadMagic_store (c.length_readDigest md5 fd.mem)]
      exact hvalid.magic
    rw [run_eq md5 hloads, if_neg (by omega), if_neg (not_not.mpr hmagic'), if_neg (by omega),
      if_pos (by rw [hfd', loadSize_replaced, hzero])]
    rfl
  · rw [or_iff_right hzero]
    have hvalid' : c.ValidHeader fd'.mem := by
      rw [hfd']
      exact validHeader_replaced md5 hvalid hzero
    have hreads' : c.Reads fd'.mem := by
      rw [hfd']
      exact (c.reads_replaced md5 fd.mem).mpr hreads
    have hread : c.readDigest md5 fd'.mem =
        c.digest md5 (c.replaced md5 fd.mem) (c.readOffset fd.mem) (c.readSize fd.mem) := by
      rw [hfd', readDigest_replaced]
    have hload : c.header.loadDigest fd'.mem c.pos = c.readDigest md5 fd.mem := by
      rw [hfd', loadDigest_replaced]
    rw [← hread, ← hload]
    constructor
    -- a second run that writes would store the digest it computes over the one that is there
    · intro hsame
      by_contra hne
      obtain ⟨fd'', hrun, hmem⟩ := run_replaced md5 hloads hvalid' hreads' hin hne hrewrite
      rw [hrun, finalMem, Option.some.injEq] at hsame
      have hload' := c.loadDigest_replaced md5 fd'.mem
      rw [← hmem, hsame] at hload'
      exact hne hload'.symm
    · intro heq
      rw [run_kept md5 hloads hvalid' (by omega) (fun _ => hin) (fun _ => heq)]
      rfl

end Run

/-! ### When the header is fixed -/

section Iff

variable {c} {fd : Fd} (hloads : c.Loads) (hvalid : c.ValidHeader fd.mem)

include hloads hvalid

/-- Under the condition the run does what it is for. -/
theorem reauthenticates_of_fixable (h : c.Fixable md5 fd.mem) : c.Reauthenticates md5 fd := by
  -- the stored digest is right already, or it is replaced, or the block cannot be rewritten
  by_cases hkept : c.Reads fd.mem → c.readDigest md5 fd.mem = c.header.loadDigest fd.mem c.pos
  · have hrun := run_kept md5 hloads hvalid h.size_in h.digest_in hkept
    obtain ⟨himage, hauth⟩ := h.kept hkept
    -- the run leaves the file as it was
    have hfd : ∀ fd', c.run md5 fd = .ok fd' → fd' = fd := by
      intro fd' heq
      rw [hrun] at heq
      cases heq
      rfl
    constructor
    · rw [hrun]
      exact fun heq => by cases heq
    · intro fd' heq
      rwa [hfd fd' heq]
    · intro fd' heq x _ _
      rw [hfd fd' heq]
    · intro fd' heq
      rw [hfd fd' heq, hrun]
      rfl
    · exact fun _ _ => himage
  · obtain ⟨hreads, hne⟩ := Classical.not_imp.mp hkept
    have hin := h.digest_in hreads
    by_cases hrewrite : CanRewrite c.d (blockOffset c.env c.offset).toNat
    -- the digest is replaced
    · obtain ⟨fd', hrun, hmem⟩ := run_replaced md5 hloads hvalid hreads hin hne hrewrite
      obtain ⟨himage, hsize, hdigest, hagain⟩ := h.replaced hreads hne hrewrite
      have hfd : ∀ fd'', c.run md5 fd = .ok fd'' → fd'' = fd' := by
        intro fd'' heq
        rw [hrun] at heq
        cases heq
        rfl
      constructor
      · rw [hrun]
        exact fun heq => by cases heq
      · intro fd'' heq
        rw [hfd fd'' heq, hmem]
        refine ⟨by rw [loadSize_replaced, hsize], ?_⟩
        rw [loadDigest_replaced, imageDigest_replaced, ← hsize]
        exact hdigest
      · intro fd'' heq x hx hx'
        rw [hfd fd'' heq, hmem]
        exact c.header.store_of_other (c.length_readDigest md5 fd.mem) hx hx'
      · intro fd'' heq
        rw [hfd fd'' heq]
        exact (run_again_iff md5 hloads hvalid hreads hin hrewrite hmem).mpr hagain
      · exact fun _ _ => himage
    -- the program exits, so nothing is promised of a result
    · obtain ⟨fd', hrun⟩ := run_exit_of_rewrite md5 hloads hvalid hreads hin hne hrewrite
      have hno : ∀ fd'', c.run md5 fd ≠ .ok fd'' := by
        intro fd'' heq
        rw [hrun] at heq
        cases heq
      constructor
      · rw [hrun]
        exact fun heq => by cases heq
      · exact fun fd'' heq => absurd heq (hno fd'')
      · exact fun fd'' heq => absurd heq (hno fd'')
      · exact fun fd'' heq => absurd heq (hno fd'')
      · exact fun fd'' heq => absurd heq (hno fd'')

/-- A run that does what it is for meets the condition. -/
theorem fixable_of_reauthenticates (h : c.Reauthenticates md5 fd) : c.Fixable md5 fd.mem := by
  have hsize : c.inBlock + c.header.sizeAt + 4 ≤ c.d.erasesize := by
    by_contra hlt
    exact h.no_fault (run_fault_of_size md5 hloads hvalid (by omega))
  have hin : c.Reads fd.mem → c.inBlock + c.header.sizeof ≤ c.d.erasesize := by
    intro hreads
    by_contra hlt
    exact h.no_fault (run_fault_of_digest md5 hloads hvalid hsize hreads (by omega))
  -- each condition is read off the one run that it is about
  constructor
  · exact hsize
  · exact hin
  · intro hkept
    have hrun := run_kept md5 hloads hvalid hsize hin hkept
    exact ⟨h.readable fd hrun, h.authentic fd hrun⟩
  · intro hreads hne hrewrite
    obtain ⟨fd', hrun, hmem⟩ := run_replaced md5 hloads hvalid hreads (hin hreads) hne hrewrite
    have hauth := h.authentic fd' hrun
    rw [hmem] at hauth
    have heq : c.readSize fd.mem = c.clamped fd.mem := by
      rw [← hauth.size, loadSize_replaced]
    have hdigest := hauth.digest
    rw [loadDigest_replaced, imageDigest_replaced, ← heq] at hdigest
    exact ⟨h.readable fd' hrun, heq, hdigest,
      (run_again_iff md5 hloads hvalid hreads (hin hreads) hrewrite hmem).mp (h.again fd' hrun)⟩

end Iff

/-- A block that cannot be loaded is not reported as fixed. -/
theorem reauthenticates_of_not_loads {c : Call w} {fd : Fd} (h : ¬c.Loads) :
    c.Reauthenticates md5 fd := by
  have hrun := run_exit_of_loads md5 fd h
  have hno : ∀ fd', c.run md5 fd ≠ .ok fd' := by
    intro fd' heq
    rw [hrun] at heq
    cases heq
  constructor
  · rw [hrun]
    exact fun heq => by cases heq
  · exact fun fd' heq => absurd heq (hno fd')
  · exact fun fd' heq => absurd heq (hno fd')
  · exact fun fd' heq => absurd heq (hno fd')
  · exact fun fd' heq => absurd heq (hno fd')

/-- A header in the first block, as `main` asks for it: what is read is as long as the image, the
image can be read, and the size is right whenever the digest is. -/
structure InFirstBlock (c : Call w) (mem : Mem) : Prop where
  first : (blockOffset c.env c.offset).toNat = 0
  inside : c.inBlock + c.header.sizeof ≤ c.d.erasesize
  size : c.readSize mem = c.clamped mem
  image : c.ImageReads mem
  stale : c.header.loadDigest mem c.pos =
      c.digest md5 mem (c.imageOffset mem) (c.clamped mem) →
    c.header.loadSize mem c.pos = c.clamped mem

/-- Such a header is fixed. -/
theorem reauthenticates_of_first_block {c : Call w} {fd : Fd} (hvalid : c.ValidHeader fd.mem)
    (h : c.InFirstBlock md5 fd.mem) : c.Reauthenticates md5 fd := by
  obtain ⟨hfirst, hin, hsize, himage, hstale⟩ := h
  obtain ⟨-, -, hauth, hdig, hsizeof⟩ := c.header.ordered
  have hpos : c.inBlock = c.pos := by
    have hadd := c.blockOffset_add
    omega
  have hoffset : c.readOffset fd.mem = c.imageOffset fd.mem := by
    rw [readOffset, hpos]
    rfl
  have hreads : c.Reads fd.mem := by
    rw [Reads, hoffset, hsize]
    exact himage
  have hdigest : c.readDigest md5 fd.mem =
      c.digest md5 fd.mem (c.imageOffset fd.mem) (c.clamped fd.mem) := by
    rw [readDigest, hoffset, hsize]
  have hafter : c.imageOffset (c.replaced md5 fd.mem) = c.imageOffset fd.mem :=
    c.header.dataOffset_store (c.length_readDigest md5 fd.mem)
  -- in the first block the offset in the block is the offset of the image
  by_cases hloads : c.Loads
  · refine reauthenticates_of_fixable md5 hloads hvalid ⟨by omega, fun _ => hin, ?_, ?_⟩
    · intro hkept
      have hload := (hkept hreads).symm.trans hdigest
      exact ⟨himage, hstale hload, hload⟩
    · intro _ _ _
      refine ⟨himage, hsize, by rw [hdigest, hsize], .inr ?_⟩
      have himageDigest := c.imageDigest_replaced md5 fd.mem (c.readSize fd.mem)
      rw [hafter, ← hoffset] at himageDigest
      exact himageDigest
  · exact reauthenticates_of_not_loads md5 hloads

/-- A valid header is authentic behind a fix exactly if its block cannot be loaded or it is
`Fixable`; in the first block it is if the image can be read. -/
theorem reauthenticates_iff_fixable (c : Call w) (fd : Fd) :
    ((c.ValidHeader fd.mem → c.Reauthenticates md5 fd) ↔
      (c.ValidHeader fd.mem → c.Loads → c.Fixable md5 fd.mem)) ∧
    (c.ValidHeader fd.mem → c.InFirstBlock md5 fd.mem → c.Reauthenticates md5 fd) := by
  refine ⟨?_, fun hvalid h => reauthenticates_of_first_block md5 hvalid h⟩
  apply imp_congr_right
  intro hvalid
  constructor
  · exact fun h hloads => fixable_of_reauthenticates md5 hloads hvalid h
  · intro h
    by_cases hloads : c.Loads
    · exact reauthenticates_of_fixable md5 hloads hvalid (h hloads)
    · exact reauthenticates_of_not_loads md5 hloads

end Call

/-! ### A header in the second block -/

private theorem twoBlocks_pos : 0 < 64 := by decide

private theorem twoBlocks_dvd : 64 ∣ 128 := by decide

private theorem twoBlocks_lt : 128 < 2 ^ 32 := by decide

def twoBlocks : MtdDev where
  mtdtype := .other
  erasesize := 64
  size := 128
  bad := fun _ => false
  eraseFault := fun _ => false
  writeFault := fun _ => none
  erasesize_pos := twoBlocks_pos
  size_dvd := twoBlocks_dvd
  size_lt := twoBlocks_lt

/-- The header starts with the second block. -/
def secondBlock : Call 32 := ⟨.seama, goodEnv 64, twoBlocks, 64, 0⟩

/-- A header with size 100, of which 36 bytes are left on the device. -/
def secondMem : Mem := writeBytes (fun _ => 0) 64 [0x5e, 0xa3, 0xa4, 0x17, 0, 0, 0, 0, 0, 0, 0, 100]

/-- The header in the second block is valid. -/
theorem secondBlock_valid : secondBlock.ValidHeader secondMem :=
  ⟨by decide, by decide, by decide⟩

/-- The second block can be loaded. -/
theorem secondBlock_loads : secondBlock.Loads :=
  ⟨rfl, by decide, by decide, by decide⟩

/-- The header gets size 100, and the digest of the bytes from 28 on. -/
theorem secondBlock_not_reauthenticates :
    ¬∃ md5, secondBlock.Reauthenticates md5 ⟨0, secondMem, []⟩ := by
  rintro ⟨md5, h⟩
  have hfixable : secondBlock.Fixable md5 secondMem :=
    Call.fixable_of_reauthenticates md5 secondBlock_loads secondBlock_valid h
  have hclamped : secondBlock.clamped secondMem = 36 := by decide
  have hread : secondBlock.readSize secondMem = 100 := by decide
  have hsize : secondBlock.header.loadSize secondMem secondBlock.pos = 100 := by decide
  by_cases hkept : secondBlock.Reads secondMem → secondBlock.readDigest md5 secondMem =
    secondBlock.header.loadDigest secondMem secondBlock.pos
  -- the size in the header is 100, but only 36 bytes of it are read
  · obtain ⟨-, hauth, -⟩ := hfixable.kept hkept
    omega
  · obtain ⟨hreads, hne⟩ := Classical.not_imp.mp hkept
    obtain ⟨-, heq, -⟩ := hfixable.replaced hreads hne ⟨⟨by decide, by decide⟩, rfl⟩
    omega

end HandsomeMod.Native.MtdFix
