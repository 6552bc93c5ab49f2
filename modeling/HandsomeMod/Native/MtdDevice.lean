import Mathlib

/-!
# MTD devices as `mtd.c` sees them

`package/system/mtd/src/mtd.c` drives a flash device through a file descriptor: `MEMGETBADBLOCK`
and `MEMERASE` ioctls, `lseek` and `write`. This module embeds `mtd_block_is_bad` and
`mtd_erase_block` over a model of such a device.

The kernel side follows the documented MTD character device: block status and erase requests
outside the device fail with `EINVAL`, a bad or worn-out block cannot be erased, a write at the end
of the device fails with `ENOSPC`, a longer write is cut at the end, and programming a flash cell
only clears bits.
-/

namespace HandsomeMod.Native.Mtd

/-- `mtdInfo.type`, as far as `mtd.c` tells the types apart. -/
inductive MtdType where
  | nandflash
  | other
  deriving Repr, DecidableEq

/-- What `MEMGETINFO` reports of a device, and how the device answers later requests.
    `size` is a `__u32` in `struct mtd_info_user`. -/
structure MtdDev where
  mtdtype : MtdType
  erasesize : Nat
  size : Nat
  /-- blocks marked bad, by index; only looked at on NAND -/
  bad : Nat → Bool
  /-- blocks whose erase fails although they are not marked bad -/
  eraseFault : Nat → Bool
  /-- `writeFault pos = some k`: a write at `pos` stops with an error after `k` bytes -/
  writeFault : Nat → Option Nat
  erasesize_pos : 0 < erasesize
  size_dvd : erasesize ∣ size
  size_lt : size < 2 ^ 32

namespace MtdDev

/-- Number of erase blocks. -/
def nblocks (d : MtdDev) : Nat := d.size / d.erasesize

/-- Block `b` exists and is marked bad. -/
def isBad (d : MtdDev) (b : Nat) : Bool :=
  d.mtdtype == .nandflash && decide (b < d.nblocks) && d.bad b

/-- A `MEMERASE` of exactly block `b` succeeds. -/
def canErase (d : MtdDev) (b : Nat) : Bool :=
  decide (b < d.nblocks) && !d.isBad b && !d.eraseFault b

end MtdDev

/-- A change of the flash: an erased block, or `len` bytes written at `pos` that were taken from
    `buf + off`. -/
inductive Op where
  | erase (start : Nat)
  | write (pos off len : Nat)
  deriving Repr, DecidableEq

/-- An open device: the file position, the flash contents, and the changes made so far. -/
structure Fd where
  pos : Nat
  mem : Nat → UInt8
  log : List Op

namespace Fd

/-- `lseek(fd, delta, SEEK_CUR)` -/
def seekCur (fd : Fd) (delta : Nat) : Fd := { fd with pos := fd.pos + delta }

/-- Program `len` bytes of `src` at the file position. Programming only clears bits. -/
def store (fd : Fd) (src : Nat → UInt8) (off len : Nat) : Fd :=
  { pos := fd.pos + len
    mem := fun x =>
      if fd.pos ≤ x ∧ x < fd.pos + len then fd.mem x &&& src (off + (x - fd.pos)) else fd.mem x
    log := fd.log ++ [.write fd.pos off len] }

/-- `write(fd, buf + off, len)`: the device afterwards and the result, `-1` on an error. -/
def write (d : MtdDev) (fd : Fd) (src : Nat → UInt8) (off len : Nat) : Fd × Int :=
  if d.size ≤ fd.pos then (fd, -1)
  else
    let count := min len (d.size - fd.pos)
    match d.writeFault fd.pos with
    | some k => (fd.store src off (min k count), -1)
    | none => (fd.store src off count, count)

/-- `MEMERASE` of the block that starts at `start`, `none` when it fails. -/
def memErase (d : MtdDev) (fd : Fd) (start : Nat) : Option Fd :=
  if start % d.erasesize = 0 ∧ d.canErase (start / d.erasesize) then
    some { fd with
      mem := fun x => if start ≤ x ∧ x < start + d.erasesize then 0xff else fd.mem x
      log := fd.log ++ [.erase start] }
  else none

end Fd

/-- `pread(fd, buf, n, pos)`: how many bytes are read. `readFault pos n = some k` is for a read that
    fails or ends behind `k` bytes. -/
def MtdDev.pread (d : MtdDev) (readFault : Nat → Nat → Option Nat) (pos n : Nat) : Nat :=
  let count := min n (d.size - pos)
  match readFault pos n with
  | some k => min k count
  | none => count

/-- `pwrite(fd, buf, n, pos)`: the device afterwards and the result. -/
def Fd.pwrite (d : MtdDev) (fd : Fd) (buf : Nat → UInt8) (n pos : Nat) : Fd × Int :=
  let r := Fd.write d { fd with pos := pos } buf 0 n
  ({ r.1 with pos := fd.pos }, r.2)

/-- A C `int` obtained from a larger integer. -/
def toInt (n : Nat) : Int := (BitVec.ofNat 32 n).toInt

/-- The `MEMGETBADBLOCK` ioctl. -/
def memGetBadBlock (d : MtdDev) (o : Int) : Int :=
  if o < 0 ∨ (d.size : Int) ≤ o then -1
  else if d.isBad (o.toNat / d.erasesize) then 1 else 0

/-- `mtd_block_is_bad(fd, (int) offset)`; `none` is its `exit(1)`. -/
def mtdBlockIsBad (d : MtdDev) (offset : Nat) : Option Bool :=
  if d.mtdtype = .nandflash then
    let r := memGetBadBlock d (toInt offset)
    if r < 0 then none else some (decide (r ≠ 0))
  else some false

/-- `mtd_erase_block(fd, (int) offset)`; `none` is its `-1`. The offset becomes the `__u32` field
    `start`. -/
def mtdEraseBlock (d : MtdDev) (fd : Fd) (offset : Nat) : Option Fd :=
  fd.memErase d (offset % 2 ^ 32)

end HandsomeMod.Native.Mtd
