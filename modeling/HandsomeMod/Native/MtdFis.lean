import HandsomeMod.ForStd.Cells

/-!
# The FIS directory of `mtd`

Embeds `fis_validate` and `fis_remap` of `package/system/mtd/src/fis.c`. The erase block that holds
the directory is mapped; it is a list of descriptors, and a pointer into it is an index. `none` is an
access outside of the block, NULL included.
-/

namespace HandsomeMod.Native.MtdFis

open ForStd

/-- `name[16]` -/
abbrev Name := Vector UInt8 16

/-- `struct fis_image_desc` -/
structure Desc where
  name : Name
  flashBase : UInt32
  memBase : UInt32
  size : UInt32
  entryPoint : UInt32
  dataLength : UInt32
  pad : Vector UInt8 212
  crcDesc : UInt32
  crcFile : UInt32
  deriving DecidableEq

/-- `struct fis_part`; its offset is never used. -/
structure Part where
  name : Name
  loadaddr : UInt32
  size : UInt32
  length : UInt32
  crc : UInt32

/-- A descriptor of bytes 0xff. -/
def erased : Desc where
  name := Vector.replicate 16 0xff
  flashBase := 0xffffffff
  memBase := 0xffffffff
  size := 0xffffffff
  entryPoint := 0xffffffff
  dataLength := 0xffffffff
  pad := Vector.replicate 212 0xff
  crcDesc := 0xffffffff
  crcFile := 0xffffffff

/-- `!desc->hdr.name[0] || (desc->hdr.name[0] == 0xff)` -/
def Desc.isFree (d : Desc) : Bool := d.name[0] == 0 || d.name[0] == 0xff

/-- The descriptors that the loops visit. -/
def used (b : List Desc) : List Desc := b.takeWhile fun d => !d.isFree

/-- `strncmp` of two names is 0. -/
def sameName (a b : Name) : Bool :=
  a.toList.takeWhile (· != 0) == b.toList.takeWhile (· != 0)

/-- A partition of the list has the name of the descriptor. -/
def isNamed (old : List Part) (d : Desc) : Bool := old.any fun p => sameName d.name p.name

/-- `fis_validate` -/
def fisValidate (b : List Desc) (old new : List Part) : Int :=
  -- only the last partition can detect the size automatically
  if new.dropLast.any fun p => p.size == 0 then -1
  else if (used b).countP (isNamed old) = old.length then 1
  else -1

/-! ### `fis_remap` -/

/-- What the first loop leaves in `offset`, `first` and `last`. -/
structure Scan where
  offset : UInt32
  first : Option Nat
  last : Option Nat

/-- A turn of the first loop at the descriptor with index `i`. -/
def scanStep (old : List Part) (s : Scan) (dn : Desc × Nat) : Scan :=
  let (d, i) := dn
  -- update max offset
  let offset := if s.offset < d.flashBase then d.flashBase else s.offset
  if isNamed old d then
    { offset := offset, first := if s.first.isNone then some i else s.first, last := some i }
  else { s with offset := offset }

def scan (old : List Part) (ds : List Desc) : Scan :=
  ds.zipIdx.foldl (scanStep old) { offset := 0, first := none, last := none }

/-- The second loop: the least base behind the last replaced partition, or the maximum. -/
def spaceEnd (ds : List Desc) (lastBase offset : UInt32) : UInt32 :=
  ds.foldl (fun offset d =>
    if d.flashBase > lastBase ∧ d.flashBase < offset then d.flashBase else offset) offset

/-- The descriptors to replace, and the flash that the new partitions get. -/
structure Place where
  first : Nat
  last : Nat
  base : UInt32
  size : UInt32

def place (b : List Desc) (old : List Part) : Option Place := do
  let s := scan old (used b)
  let first ← s.first
  let last ← s.last
  let firstDesc ← b[first]?
  let lastDesc ← b[last]?
  let swap := decide (firstDesc.flashBase > lastDesc.flashBase)
  let firstFb := if swap then lastDesc else firstDesc
  let lastFb := if swap then firstDesc else lastDesc
  -- determine size of available space
  let offset := spaceEnd (used b) lastFb.flashBase s.offset
  some { first := first, last := last, base := firstFb.flashBase, size := offset - firstFb.flashBase }

/-- Move the descriptors from `last` on behind `n` new ones from `first` on. -/
def makeRoom (b : List Desc) (first last n : Nat) : Option (List Desc) :=
  let desc := first + n
  if desc = last then some b
  else do
    let tmp := if desc > last then desc else last
    let b' ← memmove b desc last (b.length - tmp : Int)
    if desc < last then
      let tmp := b.length - (last - desc)
      memset b' tmp (tmp - b.length : Int) erased
    else some b'

/-- A new descriptor at `offset`, with `size` bytes left. -/
def newDesc (part : Part) (offset size : UInt32) : Desc :=
  let size := if part.size > 0 then part.size else size
  { name := part.name
    flashBase := offset
    memBase := part.loadaddr
    size := size
    entryPoint := part.loadaddr
    dataLength := if part.length > 0 then part.length else size
    pad := Vector.replicate 212 0
    crcDesc := 0
    crcFile := part.crc }

/-- The new descriptors one after the other. -/
def newDescs (offset size : UInt32) : List Part → List Desc
  | [] => []
  | part :: parts =>
    let d := newDesc part offset size
    d :: newDescs (offset + d.size) (size - d.size) parts

/-- `fis_remap` -/
def fisRemap (b : List Desc) (old new : List Part) : Option (List Desc) := do
  let p ← place b old
  let b ← makeRoom b p.first (p.last + 1) new.length
  writeCells b p.first (newDescs p.base p.size new)

end HandsomeMod.Native.MtdFis
