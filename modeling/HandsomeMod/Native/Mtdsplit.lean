import HandsomeMod.ForStd.CStream

/-!
# The firmware splitters

Embeds `mtdsplit.c`, `mtdsplit_uimage.c`, `mtdsplit_fit.c` and `mtdsplit_trx.c`, on a machine of
either byte order whose `size_t` has `w` bits. Allocations succeed. A loop has a number of passes
after which it counts as still running.

The kernel side follows the documented MTD interface: a read outside the device fails, and a read
inside it returns the bytes of the flash or fails.
-/

namespace HandsomeMod.Native.Mtdsplit

open ForStd

inductive Errno where
  | eio
  | einval
  | enodev
  deriving DecidableEq, Repr

/-- `struct mtd_info`, with the flash and the reads that fail, by their number. The size is an
`uint64_t`. -/
structure MtdInfo where
  size : Nat
  erasesize : Nat
  flash : Mem
  fails : Nat → Bool
  size_lt : size < 2 ^ 64

/-- `struct mtd_partition` -/
structure MtdPartition where
  name : String
  offset : Nat
  size : Nat
  deriving DecidableEq, Repr

/-- The two partitions of a splitter that returns 2. -/
structure Parts where
  kernel : MtdPartition
  rootfs : MtdPartition
  deriving DecidableEq, Repr

def kernelPartName : String := "kernel"

def rootfsPartName : String := "rootfs"

def ubiPartName : String := "ubi"

/-- `enum mtdsplit_part_type` -/
inductive PartType where
  | squashfs
  | jffs2
  | ubi
  deriving DecidableEq, Repr

variable (w : Nat) (e : Endian)

/-- A value as `size_t`. -/
def sizeT (n : Nat) : Nat := n % 2 ^ w

/-- `mtd_read`, the read of number `n`. -/
def mtdRead (mtd : MtdInfo) (n offset len : Nat) : Except Errno (List UInt8) :=
  if offset < mtd.size ∧ len ≤ mtd.size - offset then
    if mtd.fails n then .error .eio else .ok (bytesAt mtd.flash offset len)
  else .error .einval

/-- A word of the CPU in a buffer. -/
def cpuField (buf : List UInt8) (pos : Nat) : Nat := e.load 4 fun k => buf.getD (pos + k) 0

/-- A little-endian word in a buffer. -/
def leField (buf : List UInt8) (pos : Nat) : Nat := loadLE 4 fun k => buf.getD (pos + k) 0

/-! ### The root filesystem -/

def squashfsMagic : Nat := 0x73717368

def ubiEcMagic : Nat := 0x55424923

/-- `mtd_rounddown_to_eb`: the product is one of two `uint32_t`. -/
def mtdRounddownToEb (sz : Nat) (mtd : MtdInfo) : Nat :=
  if sz % mtd.erasesize = 0 then sz
  else sz / mtd.erasesize % 2 ^ 32 * mtd.erasesize % 2 ^ 32

/-- `mtd_next_eb` -/
def mtdNextEb (mtd : MtdInfo) (offset : Nat) : Nat :=
  sizeT w (mtdRounddownToEb offset mtd + mtd.erasesize)

/-- `mtd_check_rootfs_magic`, with the read of number `n`. -/
def mtdCheckRootfsMagic (mtd : MtdInfo) (n offset : Nat) : Except Errno PartType :=
  match mtdRead mtd n offset 4 with
  | .error err => .error err
  | .ok magic =>
    if leField magic 0 = squashfsMagic then .ok .squashfs
    else if cpuField e magic 0 = 0x19852003 then .ok .jffs2
    else if beField 4 magic 0 = ubiEcMagic then .ok .ubi
    else .error .einval

/-- `mtd_find_rootfs_from`, from the read of number `n` on: none while the loop runs, or when it
divides by an erase size of zero. -/
def mtdFindRootfsFrom (mtd : MtdInfo) (limit : Nat) :
    Nat → Nat → Nat → Option (Except Errno (Nat × PartType))
  | 0, _, _ => none
  | fuel + 1, n, offset =>
    if offset < limit then
      match mtdCheckRootfsMagic e mtd n offset with
      | .ok type => some (.ok (offset, type))
      | .error _ =>
        if mtd.erasesize = 0 then none
        else mtdFindRootfsFrom mtd limit fuel (n + 1) (mtdNextEb w mtd offset)
    else some (.error .enodev)

/-! ### uImage -/

namespace Uimage

/-- `sizeof(struct uimage_header)` -/
def sizeofHeader : Nat := 64

def ihMagic : UInt32 := 0x27051956

def ihTypeKernel : UInt32 := 2

def ihOsLinux : UInt8 := 5

/-- The properties of a device tree node that is compatible with `openwrt,uimage`. -/
structure Node where
  padding : Option UInt32
  ihMagic : Option UInt32
  ihType : Option UInt32
  offset : Option UInt32
  partitionMagic : Option UInt32

/-- What `uimage_parse_dt` leaves in the variables of its caller. -/
structure Config where
  extralen : Int
  ihMagic : UInt32
  ihType : UInt32
  headerOffset : UInt32
  partMagic : UInt32

/-- `uimage_parse_dt`; `extralen` is an `int`. -/
def uimageParseDt (np : Option Node) : Config :=
  match np with
  | none =>
    { extralen := 0, ihMagic := ihMagic, ihType := ihTypeKernel, headerOffset := 0, partMagic := 0 }
  | some np =>
    { extralen := ((np.padding.getD 0).toNat : Int).bmod (2 ^ 32)
      ihMagic := np.ihMagic.getD ihMagic
      ihType := np.ihType.getD ihTypeKernel
      headerOffset := np.offset.getD 0
      partMagic := np.partitionMagic.getD 0 }

variable (c : Config)

/-- `uimage_verify_default` returns 0. -/
def uimageVerifyDefault (buf : List UInt8) : Bool :=
  beField 4 buf 0 = c.ihMagic.toNat ∧ buf.getD 28 0 = ihOsLinux ∧
    (buf.getD 30 0).toNat = c.ihType.toNat

/-- `buflen` -/
def buflen : Nat := sizeofHeader + c.headerOffset.toNat

/-- The size of an image by its header, as `size_t`. -/
def uimageSize (header : List UInt8) : Nat :=
  ((sizeofHeader + beField 4 header 12 + c.headerOffset.toNat + c.extralen) % 2 ^ w).toNat

/-- What the header scan leaves: the number of reads so far, `offset` and `uimage_size`. -/
structure Scan where
  reads : Nat
  offset : Nat
  uimageSize : Nat
  deriving DecidableEq, Repr

/-- What the scan does with a block: whether it ends here, and `uimage_size`. -/
def check (mtd : MtdInfo) (n offset : Nat) : Bool × Nat :=
  match mtdRead mtd n offset (buflen c) with
  | .error _ => (false, 0)
  | .ok buf =>
    -- The optional partition magic comes before the header.
    if c.headerOffset ≠ 0 ∧ c.partMagic ≠ 0 ∧ beField 4 buf 0 ≠ c.partMagic.toNat then (false, 0)
    else
      let header := buf.drop c.headerOffset.toNat
      if uimageVerifyDefault c header then
        let size := uimageSize w c header
        if sizeT w (offset + size) > mtd.size then (false, size) else (true, size)
      else (false, 0)

/-- The scan for a header on erase block boundaries. -/
def scan (mtd : MtdInfo) : Nat → Scan → Option Scan
  | 0, _ => none
  | fuel + 1, s =>
    if s.offset < mtd.size then
      let r := check w c mtd s.reads s.offset
      if r.1 then some { s with reads := s.reads + 1, uimageSize := r.2 }
      else
        scan mtd fuel
          { reads := s.reads + 1
            offset := sizeT w (s.offset + mtd.erasesize)
            uimageSize := r.2 }
    else some s

/-- What `__mtdsplit_parse_uimage` does after the scan. -/
def split (mtd : MtdInfo) (fuel : Nat) (s : Scan) : Option (Except Errno Parts) :=
  if s.uimageSize = 0 then some (.error .enodev)
  else
    let uimageOffset := s.offset
    let finish (uimageSize rootfsOffset rootfsSize : Nat) (type : PartType) : Except Errno Parts :=
      if rootfsSize = 0 then .error .enodev
      else
        .ok
          { kernel := { name := kernelPartName, offset := uimageOffset, size := uimageSize }
            rootfs :=
              { name := if type = .ubi then ubiPartName else rootfsPartName
                offset := rootfsOffset
                size := rootfsSize } }
    if uimageOffset = 0 then
      -- the kernel comes first, the rootfs is searched behind it
      (mtdFindRootfsFrom w e mtd (sizeT w mtd.size) fuel s.reads
        (sizeT w (uimageOffset + s.uimageSize))).map fun
      | .error err => .error err
      | .ok (rootfsOffset, type) =>
        finish (sizeT w (rootfsOffset + 2 ^ w - uimageOffset)) rootfsOffset
          (sizeT w (mtd.size - rootfsOffset)) type
    else
      -- the rootfs comes first and reaches up to the kernel
      match mtdCheckRootfsMagic e mtd s.reads 0 with
      | .error err => some (.error err)
      | .ok type => some (finish s.uimageSize 0 uimageOffset type)

/-- `__mtdsplit_parse_uimage`: none while a loop runs, or when the buffer has no room for a header at
`header_offset`, as the sum of the two does not fit `size_t`. -/
def mtdsplitParseUimage (mtd : MtdInfo) (fuel : Nat) : Option (Except Errno Parts) :=
  if buflen c ≥ 2 ^ w then none
  else (scan w c mtd fuel ⟨0, 0, 0⟩).bind (split w e mtd fuel)

end Uimage

/-! ### FIT -/

namespace Fit

/-- `sizeof(struct fdt_header)` -/
def hdrLen : Nat := 40

def ofDtHeader : Nat := 0xd00dfeed

/-- What the header scan leaves: the number of reads so far, `offset` and `hdr`. -/
structure Scan where
  reads : Nat
  offset : Nat
  hdr : List UInt8
  deriving DecidableEq, Repr

/-- The scan for a FIT image on erase block boundaries. -/
def scan (mtd : MtdInfo) : Nat → Scan → Option (Except Errno Scan)
  | 0, _ => none
  | fuel + 1, s =>
    if sizeT w (s.offset + hdrLen) ≤ mtd.size then
      match mtdRead mtd s.reads s.offset hdrLen with
      | .error err => some (.error err)
      | .ok hdr =>
        if beField 4 hdr 0 ≠ ofDtHeader then
          scan mtd fuel
            { reads := s.reads + 1, offset := sizeT w (s.offset + mtd.erasesize), hdr := hdr }
        else some (.ok { s with reads := s.reads + 1, hdr := hdr })
    else some (.ok s)

/-- `fit_size` -/
def fitSize (hdr : List UInt8) : Nat := beField 4 hdr 4

/-- What `mtdsplit_fit_parse` does after the scan. -/
def split (mtd : MtdInfo) (fuel : Nat) (s : Scan) : Option (Except Errno Parts) :=
  if fitSize s.hdr = 0 then some (.error .enodev)
  else
    (mtdFindRootfsFrom w e mtd (sizeT w mtd.size) fuel s.reads
      (sizeT w (s.offset + fitSize s.hdr))).bind fun
    | .error err => some (.error err)
    | .ok (rootfsOffset, _) =>
      -- rounding down to an eraseblock divides by its size
      if mtd.erasesize = 0 then none
      else
        some (.ok
          { kernel :=
              { name := kernelPartName
                offset := s.offset
                size := mtdRounddownToEb (fitSize s.hdr) mtd + mtd.erasesize }
            rootfs :=
              { name := rootfsPartName
                offset := rootfsOffset
                size := sizeT w (mtd.size - rootfsOffset) } })

/-- `mtdsplit_fit_parse`, with what the stack holds in place of `hdr`. -/
def mtdsplitFitParse (mtd : MtdInfo) (hdr : List UInt8) (fuel : Nat) :
    Option (Except Errno Parts) :=
  (scan w mtd fuel ⟨0, 0, hdr⟩).bind fun
  | .error err => some (.error err)
  | .ok s => split w e mtd fuel s

end Fit

/-! ### TRX -/

namespace Trx

def trxMagic : Nat := 0x30524448

/-- `sizeof(struct trx_header)` -/
def headerLen : Nat := 32

/-- What the header scan leaves: the number of reads so far, `offset`, `hdr` and `trx_size`. -/
structure Scan where
  reads : Nat
  offset : Nat
  hdr : List UInt8
  trxSize : Nat
  deriving DecidableEq, Repr

/-- The scan for a TRX image on erase block boundaries. -/
def scan (mtd : MtdInfo) : Nat → Scan → Option Scan
  | 0, _ => none
  | fuel + 1, s =>
    if s.offset < mtd.size then
      -- the next eraseblock
      let next (hdr : List UInt8) (trxSize : Nat) : Scan :=
        { reads := s.reads + 1
          offset := sizeT w (s.offset + mtd.erasesize)
          hdr := hdr
          trxSize := trxSize }
      match mtdRead mtd s.reads s.offset headerLen with
      | .error _ => scan mtd fuel (next s.hdr 0)
      | .ok hdr =>
        if leField hdr 0 ≠ trxMagic then scan mtd fuel (next hdr 0)
        -- the sum may wrap on 32 bits
        else if sizeT w (s.offset + leField hdr 4) > mtd.size then
          scan mtd fuel (next hdr (leField hdr 4))
        else some { s with reads := s.reads + 1, hdr := hdr, trxSize := leField hdr 4 }
    else some s

/-- `offset + hdr.offset[i]`: the field is a `__le32` that is added as it is. -/
def partOffset (s : Scan) (i : Nat) : Nat := sizeT w (s.offset + cpuField e s.hdr (16 + 4 * i))

/-- What `mtdsplit_parse_trx` does after the scan. -/
def split (mtd : MtdInfo) (s : Scan) : Except Errno Parts :=
  if s.trxSize = 0 then .error .enodev
  else
    let trxOffset := partOffset w e s 0
    let rootfsOffset := partOffset w e s 1
    let rootfsSize := sizeT w ((mtd.size + 2 ^ 64 - rootfsOffset) % 2 ^ 64)
    let trxSize := sizeT w (rootfsOffset + 2 ^ w - trxOffset)
    if rootfsSize = 0 then .error .enodev
    else
      .ok
        { kernel := { name := kernelPartName, offset := trxOffset, size := trxSize }
          rootfs := { name := rootfsPartName, offset := rootfsOffset, size := rootfsSize } }

/-- `mtdsplit_parse_trx`, with what the stack holds in place of `hdr`. -/
def mtdsplitParseTrx (mtd : MtdInfo) (hdr : List UInt8) (fuel : Nat) :
    Option (Except Errno Parts) :=
  (scan w mtd fuel ⟨0, 0, hdr, 0⟩).map (split w e mtd)

end Trx

end HandsomeMod.Native.Mtdsplit
