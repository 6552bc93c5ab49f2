import HandsomeMod.ForStd.Mem
import HandsomeMod.Native.MtdDevice

/-!
# The boot counter

Embeds `mtd_resetbc` of `linksys_bootcount.c`. An erase of the whole device goes on up to the first
block that cannot be erased. A write to behind `page` is a fault.
-/

namespace HandsomeMod.Native.MtdResetbc

open ForStd Mtd

/-- `BOOTCOUNT_MAGIC` -/
def bootcountMagic : Nat := 0x20110811

/-- `BC_OFFSET_INCREMENT_MIN` -/
def bcOffsetIncrementMin : Nat := 16

/-- `sizeof(page)` -/
def sizeofPage : Nat := 2048

/-- `sizeof(struct bootcounter)` -/
def sizeofBootcounter : Nat := 12

inductive Fault where
  | outOfBounds
  deriving DecidableEq, Repr

/-- The machine and the device; `page` is what the buffer holds at the call. -/
structure Config where
  machine : Endian
  d : MtdDev
  writesize : Nat
  page : Mem
  opens : Bool
  /-- `readFault pos n = some k`: a read of `n` bytes at `pos` fails or ends behind `k` bytes -/
  readFault : Nat → Nat → Option Nat

namespace Config

variable (c : Config)

def bcOffsetIncrement : Nat :=
  if c.writesize < bcOffsetIncrementMin then bcOffsetIncrementMin else c.writesize

def numBc : Nat := c.d.size / c.bcOffsetIncrement

/-- `pread(fd, curr, sizeof(*curr), i * bc_offset_increment)`; what is not read stays. -/
def readSlot (m : Mem) (page : Mem) (i : Nat) : Mem :=
  writeBytes page 0 (bytesAt m (i * c.bcOffsetIncrement)
    (c.d.pread c.readFault (i * c.bcOffsetIncrement) sizeofBootcounter))

/-- `curr->magic` -/
def magic (curr : Mem) : Nat := c.machine.load 4 curr

/-- `curr->count` -/
def count (curr : Mem) : Nat := c.machine.load 4 fun i => curr (4 + i)

/-- How the loop ends. -/
inductive Scan where
  | unexpected
  | stop (page : Mem) (i lastCount : Nat)

/-- The loop from slot `i` on, with `n` slots left. -/
def scan (m : Mem) : Nat → Nat → Mem → Nat → Scan
  | 0, i, page, lastCount => .stop page i lastCount
  | n + 1, i, page, lastCount =>
    let page := c.readSlot m page i
    if c.magic page ≠ bootcountMagic ∧ c.magic page ≠ 0xffffffff then .unexpected
    else if c.magic page = 0xffffffff then .stop page i lastCount
    else scan m n (i + 1) page (c.count page)

/-- `MEMERASE` of `n` blocks from block `b` on: the device, and whether all could be erased. -/
def eraseBlocks (fd : Fd) (b : Nat) : Nat → Fd × Bool
  | 0 => (fd, true)
  | n + 1 =>
    match fd.memErase c.d (b * c.d.erasesize) with
    | none => (fd, false)
    | some fd => eraseBlocks fd (b + 1) n

/-- The first of the blocks is erased before the others. -/
theorem eraseBlocks_succ (fd : Fd) (b n : Nat) : c.eraseBlocks fd b (n + 1) =
    match fd.memErase c.d (b * c.d.erasesize) with
    | none => (fd, false)
    | some fd => c.eraseBlocks fd (b + 1) n := rfl

/-- The record that is written. -/
def newRecord (page : Mem) : Mem :=
  let word (v : Nat) : List UInt8 := bytesAt (c.machine.store 4 v) 0 4
  let page := writeBytes page 0 (List.replicate c.bcOffsetIncrement 0xff)
  writeBytes page 0 (word bootcountMagic ++ word 0 ++ word bootcountMagic)

/-- The end of `mtd_resetbc`: the record is put to slot `i`. -/
def append (fd : Fd) (page : Mem) (i : Nat) : Except Fault (Int × Fd) :=
  if sizeofPage < c.bcOffsetIncrement then .error .outOfBounds
  else
    let r := fd.pwrite c.d (c.newRecord page) c.bcOffsetIncrement (i * c.bcOffsetIncrement)
    if r.2 < 0 then .ok (-4, r.1) else .ok (0, r.1)

end Config

/-- `mtd_resetbc`: what it returns, and the device. -/
def mtdResetbc (c : Config) (fd : Fd) : Except Fault (Int × Fd) :=
  if c.opens = false then .ok (-1, fd)
  else
    match c.scan fd.mem c.numBc 0 c.page 0 with
    | .unexpected => .ok (-2, fd)
    | .stop page i lastCount =>
      if lastCount = 0 then .ok (0, fd)
      else if i = c.numBc then
        let r := c.eraseBlocks fd 0 c.d.nblocks
        if r.2 = false then .ok (-3, r.1) else c.append r.1 page 0
      else c.append fd page i

end HandsomeMod.Native.MtdResetbc
