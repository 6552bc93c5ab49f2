import HandsomeMod.ForStd.Align

/-!
# `padjffs2`

Embeds `pad_image` of `padjffs2.c` for a file that is padded in place, and how `main` builds the
mask of its sizes. Files are lists of bytes, `ssize_t` is a natural number, and writes succeed.
-/

namespace HandsomeMod.Native.Padjffs2

open ForStd

abbrev U32 := BitVec 32

/-- What `pad` points to: the end of a filesystem, or a node for broken boot loaders. -/
inductive Pad where
  | eofMark
  | jffs2PadBe
  | jffs2PadLe

def Pad.bytes : Pad → List UInt8
  | .eofMark => [0xde, 0xad, 0xc0, 0xde]
  | .jffs2PadBe =>
    [0x19, 0x85, 0x20, 0x04, 0x04, 0x00, 0x00, 0x00, 0xc4, 0x94, 0xdb, 0xf4]
  | .jffs2PadLe =>
    [0x85, 0x19, 0x04, 0x20, 0x00, 0x00, 0x00, 0x04, 0xa8, 0xfb, 0xa0, 0xb4]

def bufSize : Nat := 64 * 1024

/-- `ALIGN(_x, _y)`: the mask is computed with 32 bits. -/
def align (x : Nat) (y : U32) : Nat := (x + (y - 1#32).toNat) &&& (~~~(y - 1#32)).toNat

/-- The values of `i` in the loops over the bits of the mask. -/
def bits : List Nat := List.range' 10 22

/-- `1UL << i` -/
def bitMask (i : Nat) : U32 := 1#32 <<< i

/-- `pad_mask & mask` -/
def padBit (padMask : U32) (i : Nat) : Bool := padMask &&& bitMask i ≠ 0#32

/-- The first loop over the bits: the mask it ends with. -/
def firstMask (padMask : U32) : U32 :=
  match bits.find? (padBit padMask) with
  | some i => bitMask i
  | none => bitMask 31

/-- One turn of the second loop over the bits. -/
def clearBit (inLen : Nat) (padMask : U32) (i : Nat) : U32 :=
  if inLen &&& (bitMask i - 1#32).toNat = 0 then padMask &&& ~~~bitMask i else padMask

def clearBits (inLen : Nat) (padMask : U32) : U32 := bits.foldl (clearBit inLen) padMask

/-- `while (out_len < in_len)`: the file and `out_len` behind the loop. -/
def fill (file : List UInt8) (outLen inLen : Nat) : List UInt8 × Nat :=
  if outLen < inLen then
    let len := inLen - outLen
    let len := if len > bufSize then bufSize else len
    fill (file ++ List.replicate len 0xff) (outLen + len) inLen
  else (file, outLen)
termination_by inLen - outLen
decreasing_by
  have hpos : 0 < bufSize := by decide
  grind

/-- `while (pad_mask)`; none if the turns do not suffice. -/
def padLoop (pad : List UInt8) :
    Nat → List UInt8 → Nat → Nat → U32 → Option (List UInt8)
  | 0, file, _, _, padMask => if padMask = 0#32 then some file else none
  | fuel + 1, file, outLen, inLen, padMask =>
    if padMask = 0#32 then some file
    else
      let inLen := align inLen (firstMask padMask)
      let padMask := clearBits inLen padMask
      let (file, outLen) := fill file outLen inLen
      -- write out the JFFS end-of-filesystem marker
      padLoop pad fuel (file ++ pad) (outLen + pad.length) inLen padMask

/-- `pad_image` -/
def padImage (pad : Pad) (xtraOffset : U32) (file : List UInt8) (padMask : U32) :
    Option (List UInt8) :=
  let inLen := file.length + xtraOffset.toNat
  padLoop pad.bytes 32 file inLen inLen padMask

/-- The mask of `main` for the sizes in KiB that `strtoul` returned. -/
def padMaskOf (sizes : List Nat) : U32 :=
  let padMask := sizes.foldl (fun m size => m ||| BitVec.ofNat 32 (size * 1024)) 0#32
  if padMask = 0#32 then BitVec.ofNat 32 (4 * 1024 ||| 8 * 1024 ||| 64 * 1024 ||| 128 * 1024)
  else padMask

end HandsomeMod.Native.Padjffs2
