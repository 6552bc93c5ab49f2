import HandsomeMod.ForStd.CDecimal
import HandsomeMod.ForStd.Crc
import HandsomeMod.Native.MtdFix

/-!
# Image tags that are fixed in place

Embeds `mtd_fixtrx` of `imagetag.c`. A `data_size` only leads to a warning. The file descriptor is
not 0, for which `compute_crc32` reads nothing.
-/

namespace HandsomeMod.Native.MtdImagetag

open ForStd Mtd MtdFix

variable {w : Nat}

/-- The offsets of the fields of `struct bcm_tag`. -/
def totalLengthAt : Nat := 62

def cfeLengthAt : Nat := 84

def rootLengthAt : Nat := 106

def kernelLengthAt : Nat := 128

def fskernelCrcAt : Nat := 196

def imageCrcAt : Nat := 216

def rootfsCrcAt : Nat := 220

def kernelCrcAt : Nat := 224

def headerCrcAt : Nat := 236

/-- `sizeof(struct bcm_tag)` -/
def sizeofTag : Nat := 256

/-- `IMAGE_LEN` -/
def imageLen : Nat := 10

/-- `CRC_START` -/
def crcStart : UInt32 := 0xffffffff

/-- `strncpy(dest, src, n)`: the bytes of `dest`. -/
def strncpy (src : List UInt8) (n : Nat) : List UInt8 :=
  let s := (src.take n).takeWhile (· ≠ 0)
  s ++ List.replicate (n - s.length) 0

/-- What `strtoul` makes of a text field, as `uint32_t`. -/
def number (w : Nat) (field : List UInt8) : Nat :=
  (strtoul10 w (field.takeWhile (· ≠ 0))).1 % 2 ^ 32

/-- `strntoul(str, NULL, 10, len)` -/
def strntoul (env : Env w) (str : List UInt8) : Nat :=
  if env.malloc (str.length + 1) then number w str else 0

/-- `compute_crc32` of less than 1024 bytes, for which the loop is not entered. What `pread` does
not read is left out. -/
def computeCrc32 (env : Env w) (d : MtdDev) (fd : Fd) (crc : UInt32) (start computeLen : Nat) :
    UInt32 :=
  Crc.accumulate crc (bytesAt fd.mem start (env.pread d start computeLen))

/-- A length field of a tag. -/
def lengthField (m : Mem) (tag pos : Nat) : List UInt8 := bytesAt m (tag + pos) imageLen

/-- A checksum field of a tag. -/
def crcField (m : Mem) (tag pos : Nat) : List UInt8 := bytesAt m (tag + pos) 4

/-- The checksum of a tag in the order of the machine. -/
def loadHeaderCrc (machine : Endian) (m : Mem) (tag : Nat) : Nat :=
  machine.load 4 fun i => m (tag + headerCrcAt + i)

/-- `memcpy(&tag->.., &crc, sizeof(uint32_t))` -/
def storeCrc (machine : Endian) (m : Mem) (pos : Nat) (crc : UInt32) : Mem :=
  writeBytes m pos (bytesAt (machine.store 4 crc.toNat) 0 4)

/-- `sprintf(&tag->root_length[0], "%u", 0)` -/
def clearRootLength (m : Mem) (tag : Nat) : Mem := writeBytes m (tag + rootLengthAt) [0x30, 0]

/-- `strncpy(&tag->total_length[0], &tag->kernel_length[0], IMAGE_LEN)` -/
def copyLength (m : Mem) (tag : Nat) : Mem :=
  writeBytes m (tag + totalLengthAt) (strncpy (lengthField m tag kernelLengthAt) imageLen)

/-- `memcpy` of the kernel CRC to another field. -/
def copyCrc (m : Mem) (tag pos : Nat) : Mem :=
  writeBytes m (tag + pos) (crcField m tag kernelCrcAt)

/-- The checksum of the header is put into the header. -/
def sealTag (machine : Endian) (m : Mem) (tag : Nat) : Mem :=
  storeCrc machine m (tag + headerCrcAt) (Crc.accumulate crcStart (bytesAt m tag headerCrcAt))

/-- What is done with a tag. -/
def fixTag (machine : Endian) (m : Mem) (tag : Nat) : Mem :=
  let m := clearRootLength m tag
  let m := copyLength m tag
  let m := copyCrc m tag imageCrcAt
  let m := copyCrc m tag fskernelCrcAt
  let m := storeCrc machine m (tag + rootfsCrcAt) crcStart
  sealTag machine m tag

/-- `mtd_fixtrx`: the device if 0 is returned. -/
def mtdFixtrx (machine : Endian) (env : Env w) (d : MtdDev) (fd : Fd) (offset : BitVec w) :
    Except Stop Fd := do
  let blockOffset := blockOffset env offset
  let offset := (offset - blockOffset).toNat
  let buf ← loadBlock env d fd blockOffset
  if d.erasesize < offset + cfeLengthAt + imageLen then throw .fault
  else if strntoul env (lengthField buf offset cfeLengthAt) ≠ 0 then throw (.exit fd)
  else if d.erasesize < offset + headerCrcAt + 4 then throw .fault
  else if (computeCrc32 env d fd crcStart offset headerCrcAt).toNat ≠
    loadHeaderCrc machine buf offset then throw (.exit fd)
  else if strntoul env (lengthField buf offset rootLengthAt) = 0 then return fd
  else rewriteBlock d fd blockOffset.toNat (fixTag machine buf offset)

end HandsomeMod.Native.MtdImagetag
