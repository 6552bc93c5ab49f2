import HandsomeMod.ForStd.Crc
import HandsomeMod.ForStd.Except
import HandsomeMod.ForStd.Mem
import HandsomeMod.Native.MtdDevice

/-!
# Headers that are fixed in place

Embeds `seama.c`, `wrg.c` and `wrgg.c` of `mtd`: `seama_fix_md5`, `wrg_fix_md5`, `wrgg_fix_md5` and
`mtd_fixseama`, `mtd_fixwrg`, `mtd_fixwrgg`. The three formats differ in where the fields of the
header are. `size_t` has `w` bits. MD5 is a parameter. `mtd_fixtrx` of `trx.c` differs more: the
header has a CRC over the blocks that are not bad.
-/

namespace HandsomeMod.Native.MtdFix

open ForStd Mtd

variable {w : Nat}

/-! ### The block of an offset -/

/-- What a run meets. -/
structure Env (w : Nat) where
  /-- the device can be opened -/
  opens : Bool
  /-- what the global `erasesize` holds until the device is open -/
  erasesize : BitVec 32
  /-- `malloc` of so many bytes succeeds -/
  malloc : Nat → Bool
  /-- `readFault pos n = some k`: a read of `n` bytes at `pos` fails or ends behind `k` bytes -/
  readFault : Nat → Nat → Option Nat
  width : 32 ≤ w
  /-- No object has more than `PTRDIFF_MAX` bytes. -/
  malloc_lt : ∀ n, malloc n = true → n < 2 ^ (w - 1)

/-- How a run ends that does not return. -/
inductive Stop where
  /-- `exit(1)` -/
  | exit (fd : Fd)
  /-- An access outside of the block buffer. -/
  | fault

/-- An `int` that becomes a `size_t`. -/
def sizeT (w : Nat) (i : BitVec 32) : BitVec w := i.signExtend w

/-- The global `mtdsize`. -/
def mtdsize (d : MtdDev) : BitVec 32 := BitVec.ofNat 32 d.size

/-- The global `erasesize` of an open device. -/
def erasesize (d : MtdDev) : BitVec 32 := BitVec.ofNat 32 d.erasesize

def Env.pread (env : Env w) (d : MtdDev) (pos n : Nat) : Nat := d.pread env.readFault pos n

/-- `offset & ~(erasesize - 1)` -/
def blockOffset (env : Env w) (offset : BitVec w) : BitVec w :=
  offset &&& sizeT w (~~~(env.erasesize - 1))

/-- The block at `block_offset` is read. -/
def loadBlock (env : Env w) (d : MtdDev) (fd : Fd) (blockOffset : BitVec w) : Except Stop Mem :=
  if env.opens = false then .error (.exit fd)
  else if blockOffset + sizeT w (erasesize d) > sizeT w (mtdsize d) then .error (.exit fd)
  else if env.malloc (sizeT w (erasesize d)).toNat = false then .error (.exit fd)
  else if env.pread d blockOffset.toNat (sizeT w (erasesize d)).toNat ≠
    (sizeT w (erasesize d)).toNat then .error (.exit fd)
  else .ok fun i => fd.mem (blockOffset.toNat + i)

/-- The block at `block_offset` is erased and written. -/
def rewriteBlock (d : MtdDev) (fd : Fd) (blockOffset : Nat) (block : Mem) : Except Stop Fd :=
  match mtdEraseBlock d fd blockOffset with
  | none => .error (.exit fd)
  | some fd =>
    let r := fd.pwrite d block d.erasesize blockOffset
    if r.2 ≠ d.erasesize then .error (.exit r.1) else .ok r.1

/-! ### Headers -/

/-- Where a header has its fields. -/
structure Header where
  sizeof : Nat
  magic : Nat
  magicAt : Nat
  /-- the order of the bytes of the magic -/
  magicOrder : Endian
  /-- the field with the length of the data behind the header that are not part of the image -/
  metasizeAt : Option Nat
  sizeAt : Nat
  /-- the order of the bytes of the size -/
  sizeOrder : Endian
  /-- the fields that the digest is taken of, in front of the image -/
  authAt : Nat
  authLen : Nat
  digestAt : Nat
  ordered : magicAt + 4 ≤ sizeAt ∧ (∀ p ∈ metasizeAt, p + 2 ≤ sizeAt) ∧ sizeAt + 4 ≤ authAt ∧
    authAt + authLen ≤ digestAt ∧ digestAt + 16 = sizeof

namespace Header

variable (h : Header)

/-- The magic of a header at `pos`. -/
def loadMagic (m : Mem) (pos : Nat) : Nat :=
  h.magicOrder.load 4 fun i => m (pos + h.magicAt + i)

/-- The size of a header at `pos`. -/
def loadSize (m : Mem) (pos : Nat) : Nat := h.sizeOrder.load 4 fun i => m (pos + h.sizeAt + i)

/-- `ntohs(shdr->metasize)` -/
def loadMetasize (m : Mem) (pos : Nat) : Nat :=
  match h.metasizeAt with
  | some at' => Endian.load .big 2 fun i => m (pos + at' + i)
  | none => 0

/-- The fields in front of the image. -/
def loadAuth (m : Mem) (pos : Nat) : List UInt8 := bytesAt m (pos + h.authAt) h.authLen

/-- The digest of a header at `pos`. -/
def loadDigest (m : Mem) (pos : Nat) : List UInt8 := bytesAt m (pos + h.digestAt) 16

/-- The size and the digest of a header at `pos` are replaced. -/
def store (m : Mem) (pos size : Nat) (digest : List UInt8) : Mem :=
  writeBytes (writeBytes m (pos + h.sizeAt) (bytesAt (h.sizeOrder.store 4 size) 0 4))
    (pos + h.digestAt) digest

/-- How far the image is behind the start of the header. -/
def dataOffset (m : Mem) (pos : Nat) : Nat := pos + h.sizeof + h.loadMetasize m pos

end Header

/-- What `MD5_Final` returns. -/
abbrev Digest := { d : List UInt8 // d.length = 16 }

variable (md5 : List UInt8 → Digest)

/-- `seama_fix_md5`, `wrg_fix_md5` and `wrgg_fix_md5` for a header at `offset` of a block: the new
block, or none if an error is returned. -/
def fixMd5 (h : Header) (env : Env w) (d : MtdDev) (fd : Fd) (block : Mem) (offset dataOffset
    dataSize : Nat) : Except Stop (Option Mem) :=
  if env.malloc dataSize = false then .ok none
  else if env.pread d dataOffset dataSize ≠ dataSize then .ok none
  else if d.erasesize < offset + h.sizeof then .error .fault
  else
    let digest := md5 (h.loadAuth block offset ++ bytesAt fd.mem dataOffset dataSize)
    if digest = h.loadDigest block offset then .ok none
    else .ok (some (h.store block offset dataSize digest))

/-- The size that is put into the header. -/
def newSize (d : MtdDev) (dataOffset : Nat) (dataSize : BitVec w) (size : Nat) : Nat :=
  let dataSize :=
    if dataSize = 0 then sizeT w (mtdsize d) - BitVec.ofNat w dataOffset else dataSize
  if dataSize.toNat > size then size else dataSize.toNat

/-- `mtd_fixseama`, `mtd_fixwrg` and `mtd_fixwrgg`: the device if 0 is returned. -/
def mtdFix (h : Header) (env : Env w) (d : MtdDev) (fd : Fd) (offset dataSize : BitVec w) :
    Except Stop Fd := do
  let blockOffset := blockOffset env offset
  let offset := (offset - blockOffset).toNat
  let block ← loadBlock env d fd blockOffset
  -- the header reaches behind the block that was read
  if d.erasesize < offset + h.magicAt + 4 then throw .fault
  else if h.loadMagic block offset ≠ h.magic then throw (.exit fd)
  else if d.erasesize < offset + h.sizeAt + 4 then throw .fault
  else if h.loadSize block offset = 0 then throw (.exit fd)
  else
    let dataOffset := h.dataOffset block offset
    let dataSize := newSize d dataOffset dataSize (h.loadSize block offset)
    match ← fixMd5 md5 h env d fd block offset dataOffset dataSize with
    -- the checksum is right already, nothing is written
    | none => return fd
    | some block => rewriteBlock d fd blockOffset.toNat block

/-! ### The formats -/

/-- The fields of a Seama header follow one another. -/
private theorem seamaHeader_ordered : 0 + 4 ≤ 8 ∧ (∀ p ∈ some 6, p + 2 ≤ 8) ∧ 8 + 4 ≤ 12 ∧
    12 + 0 ≤ 12 ∧ 12 + 16 = 28 := by
  simp

/-- `struct seama_entity_header` -/
def seamaHeader : Header where
  sizeof := 28
  magic := 0x5ea3a417
  magicAt := 0
  magicOrder := .big
  metasizeAt := some 6
  sizeAt := 8
  sizeOrder := .big
  authAt := 12
  authLen := 0
  digestAt := 12
  ordered := seamaHeader_ordered

/-- The fields of a WRG header follow one another. -/
private theorem wrgHeader_ordered : 32 + 4 ≤ 40 ∧ (∀ p ∈ (none : Option Nat), p + 2 ≤ 40) ∧
    40 + 4 ≤ 44 ∧ 44 + 36 ≤ 80 ∧ 80 + 16 = 96 := by
  simp

/-- `struct wrg_header` -/
def wrgHeader : Header where
  sizeof := 96
  magic := 0x20040220
  magicAt := 32
  magicOrder := .little
  metasizeAt := none
  sizeAt := 40
  sizeOrder := .little
  authAt := 44
  authLen := 36
  digestAt := 80
  ordered := wrgHeader_ordered

/-- The fields of a WRGG header follow one another. -/
private theorem wrggHeader_ordered : 32 + 4 ≤ 104 ∧ (∀ p ∈ (none : Option Nat), p + 2 ≤ 104) ∧
    104 + 4 ≤ 108 ∧ 108 + 36 ≤ 144 ∧ 144 + 16 = 160 := by
  simp

/-- `struct wrgg03_header`; the size is in the order of the machine. -/
def wrggHeader (machine : Endian) : Header where
  sizeof := 160
  magic := 0x20080321
  magicAt := 32
  magicOrder := .little
  metasizeAt := none
  sizeAt := 104
  sizeOrder := machine
  authAt := 108
  authLen := 36
  digestAt := 144
  ordered := wrggHeader_ordered

/-- `mtd_fixseama` -/
def mtdFixseama : Env w → MtdDev → Fd → BitVec w → BitVec w → Except Stop Fd :=
  mtdFix md5 seamaHeader

/-- `mtd_fixwrg` -/
def mtdFixwrg : Env w → MtdDev → Fd → BitVec w → BitVec w → Except Stop Fd :=
  mtdFix md5 wrgHeader

/-- `mtd_fixwrgg` -/
def mtdFixwrgg (machine : Endian) : Env w → MtdDev → Fd → BitVec w → BitVec w → Except Stop Fd :=
  mtdFix md5 (wrggHeader machine)

/-! ### TRX -/

/-- What the fields of a TRX header are compared with; a big-endian machine cuts off the bits that
`STORE32_LE` does not move. -/
def store32LE : Endian → Nat → Nat
  | .little, x => x
  | .big, x => x % 2 ^ 32

/-- How often `while (--len >= 0)` of `crc32` runs for a `size_t` that became an `int`; none if the
`int` cannot be decremented. -/
def crc32Turns (len : Nat) : Option Nat :=
  let len := toInt len
  if len = -2 ^ 31 then none else some len.toNat

/-- `crc32buf` -/
def crc32buf (buf : List UInt8) : Option UInt32 :=
  (crc32Turns buf.length).map fun turns => Crc.accumulate 0xffffffff (buf.take turns)

/-- `x & ~(erasesize - 1)` -/
def blockStart (d : MtdDev) (x : BitVec w) : BitVec w := x &&& sizeT w (~~~(erasesize d - 1))

/-- How much of the rest is in the block of `data_offset`. -/
def readChunk (d : MtdDev) (dataOffset dataSize : BitVec w) : BitVec w :=
  let chunk := sizeT w (erasesize d) - (dataOffset &&& sizeT w (erasesize d - 1))
  if chunk < dataSize then chunk else dataSize

/-- The loop that reads the data; `buf` is what was read so far. -/
def readGood (env : Env w) (d : MtdDev) (fd : Fd) :
    Nat → BitVec w → BitVec w → List UInt8 → Except Stop (List UInt8)
  | 0, _, _, _ => .error .fault
  | fuel + 1, dataOffset, dataSize, buf =>
    if dataSize = 0 then .ok buf
    else
      let chunk := readChunk d dataOffset dataSize
      match mtdBlockIsBad d (blockStart d dataOffset).toNat with
      | none => .error (.exit fd)
      -- a bad block is stepped over, its part of the size is gone with it
      | some true => readGood env d fd fuel (dataOffset + chunk) (dataSize - chunk) buf
      | some false =>
        if env.pread d dataOffset.toNat chunk.toNat ≠ chunk.toNat then .error (.exit fd)
        else readGood env d fd fuel (dataOffset + chunk) (dataSize - chunk)
          (buf ++ bytesAt fd.mem dataOffset.toNat chunk.toNat)

/-- How `mtd_fixtrx` returns 0. -/
inductive Fixed where
  /-- `Header already fixed, exiting` -/
  | already (fd : Fd)
  /-- `Done.` -/
  | rewritten (fd : Fd)

def Fixed.fd : Fixed → Fd
  | already fd => fd
  | rewritten fd => fd

/-- How many bytes behind `TRX_CRC32_DATA_OFFSET` are looked at. -/
def trxDataSize (d : MtdDev) (dataSize : BitVec w) : BitVec w :=
  if dataSize ≠ 0 then dataSize + 16 else sizeT w (erasesize d - 12)

/-- `mtd_fixtrx` behind the first `pread`, for a header at `offset` of the block. -/
def fixtrxBlock (machine : Endian) (env : Env w) (d : MtdDev) (fd : Fd) (blockOffset : BitVec w)
    (offset : Nat) (dataOffset dataSize : BitVec w) : Except Stop Fixed := do
  let block : Mem := fun i => fd.mem (blockOffset.toNat + i)
  if (sizeT w (erasesize d)).toNat < offset + 4 then throw .fault
  -- no trx header
  else if loadLE 4 (fun i => block (offset + i)) ≠ store32LE machine 0x30524448 then
    throw (.exit fd)
  else if env.malloc dataSize.toNat = false then throw (.exit fd)
  else
    let buf ← readGood env d fd (dataSize.toNat + 1) dataOffset dataSize []
    -- length and CRC may reach behind the block
    if (sizeT w (erasesize d)).toNat < offset + 12 then throw .fault
    else
      match crc32buf buf with
      | none => throw .fault
      | some crc =>
        if loadLE 4 (fun i => block (offset + 4 + i)) = store32LE machine (buf.length + 12) ∧
            loadLE 4 (fun i => block (offset + 8 + i)) = crc.toNat then
          -- header already fixed
          return .already fd
        else
          let block := writeBytes (writeBytes block (offset + 4) (leBytes 4 (buf.length + 12)))
            (offset + 8) (leBytes 4 crc.toNat)
          return .rewritten (← rewriteBlock d fd blockOffset.toNat block)

/-- `mtd_fixtrx` -/
def mtdFixtrx (machine : Endian) (env : Env w) (d : MtdDev) (fd : Fd) (offset dataSize : BitVec w) :
    Except Stop Fixed :=
  let dataOffset := offset + 12
  let dataSize := trxDataSize d dataSize
  let blockOffset := blockStart d offset
  if env.opens = false then .error (.exit fd)
  else if dataOffset + dataSize > sizeT w (mtdsize d) then .error (.exit fd)
  else if env.malloc (sizeT w (erasesize d)).toNat = false then .error (.exit fd)
  else if env.pread d blockOffset.toNat (sizeT w (erasesize d)).toNat ≠
    (sizeT w (erasesize d)).toNat then .error (.exit fd)
  else fixtrxBlock machine env d fd blockOffset (offset - blockOffset).toNat dataOffset dataSize

end HandsomeMod.Native.MtdFix
