import HandsomeMod.ForStd.CStream
import HandsomeMod.ForStd.Crc
import HandsomeMod.ForStd.Fuel
import HandsomeMod.ForStd.Loop
import HandsomeMod.Native.MtdCore

/-!
# The splitter for Broadcom whole flash images

Embeds `jffs2_dirent_crc`, `jffs2_dirent_valid` and `jffs2_find_file` of `mtdsplit_bcm_wfi.c`. A read
outside of the buffer of an erase block ends them with a fault. `memcmp` takes all of its bytes, and
`kstrndup` those up to the end of the string.
-/

namespace HandsomeMod.Native.BcmWfi

open ForStd MtdCore

inductive Fault where
  | outOfBounds
  deriving DecidableEq, Repr

def jffs2MagicBitmask : Nat := 0x1985

def jffs2NodetypeDirent : Nat := 0xe001

/-- `sizeof(struct jffs2_raw_dirent)`, where the name is -/
def sizeofRawDirent : Nat := 40

/-- `OPENWRT_NAME`, `"1-openwrt"` -/
def openwrtName : List UInt8 := [0x31, 0x2d, 0x6f, 0x70, 0x65, 0x6e, 0x77, 0x72, 0x74]

/-- What a buffer holds as a number of `n` bytes. -/
def fieldAt (e : Endian) (n : Nat) (buf : List UInt8) (pos : Nat) : Nat :=
  e.load n fun i => buf.getD (pos + i) 0

def readField (e : Endian) (n : Nat) (buf : List UInt8) (pos : Nat) : Except Fault Nat :=
  if pos + n ≤ buf.length then .ok (fieldAt e n buf pos) else .error .outOfBounds

def readBytes (buf : List UInt8) (pos n : Nat) : Except Fault (List UInt8) :=
  if pos + n ≤ buf.length then .ok ((buf.drop pos).take n) else .error .outOfBounds

/-- `jffs2_dirent_crc` -/
def jffs2DirentCrc (buf : List UInt8) (node : Nat) : Except Fault Nat := do
  let range ← readBytes buf node (sizeofRawDirent - 8)
  return (Crc.accumulate 0 range).toNat

/-- `jffs2_dirent_valid` -/
def jffs2DirentValid (e : Endian) (buf : List UInt8) (node : Nat) : Except Fault Bool := do
  let magic ← readField e 2 buf node
  if magic = jffs2MagicBitmask then
    let nodetype ← readField e 2 buf (node + 2)
    if nodetype = jffs2NodetypeDirent then
      let ino ← readField e 4 buf (node + 20)
      if ino = 0 then return false
      else
        let nodeCrc ← readField e 4 buf (node + 32)
        let crc ← jffs2DirentCrc buf node
        return decide (nodeCrc = crc)
    else return false
  else return false

/-- `kstrndup` of a string in a buffer: none without memory. -/
def kstrndup (memory : Bool) (buf : List UInt8) (pos max : Nat) :
    Except Fault (Option (List UInt8)) :=
  let s := ((buf.drop pos).take max).takeWhile fun b => b ≠ 0
  if s.length = max ∨ pos + s.length < buf.length then .ok (if memory then some s else none)
  else .error .outOfBounds

/-- What `jffs2_find_file` is called with: the search goes on up to `stop`. With `out_name` it copies
the name, if there is memory for it. -/
structure Search where
  endian : Endian
  mtd : MtdInfo
  name : List UInt8
  stop : Nat
  outName : Bool
  memory : Bool

/-- What `jffs2_find_file` leaves where it returns 0. -/
structure File where
  offs : Nat
  outName : Option (List UInt8)
  outNameLen : Nat
  deriving DecidableEq, Repr

/-- The end of `jffs2_find_file`, with the number of reads so far. -/
structure Ret where
  reads : Nat
  res : Except Errno File

/-- The variables of the loop over the blocks, with the number of reads so far. -/
structure Cursor where
  offs : Nat
  reads : Nat
  valid : Bool

/-- A block that has been read, and the variables on the way in. -/
structure Block where
  cursor : Cursor
  buf : List UInt8

/-- The variables of the loop over the nodes of a block. -/
structure Walk where
  blockOffs : UInt32
  valid : Bool

variable (a : Search)

/-- The step to the next block. -/
def nextBlock (c : Cursor) (reads : Nat) (valid : Bool) : Cursor :=
  { offs := c.offs + a.mtd.erasesize.toNat, reads := reads, valid := valid }

/-- A turn of the loop over the blocks, up to the nodes. -/
def blockTurn (c : Cursor) : (Except Fault Ret ⊕ Cursor) ⊕ Block × Walk :=
  if c.offs < a.stop then
    match mtdRead a.mtd c.reads c.offs 2 with
    -- skip CFE erased blocks
    | .error _ => .inl (.inr (nextBlock a c (c.reads + 1) c.valid))
    | .ok magic =>
      -- skip blocks not starting with JFFS2 magic
      if magic.length ≠ 2 ∨ fieldAt a.endian 2 magic 0 ≠ jffs2MagicBitmask then
        .inl (.inr (nextBlock a c (c.reads + 1) c.valid))
      else
        -- read full block
        match mtdRead a.mtd (c.reads + 1) c.offs a.mtd.erasesize.toNat with
        | .error rc => .inl (.inl (.ok { reads := c.reads + 2, res := .error rc }))
        | .ok buf =>
          if buf.length ≠ a.mtd.erasesize.toNat then
            .inl (.inl (.ok { reads := c.reads + 2, res := .error .einval }))
          else .inr ({ cursor := c, buf := buf }, { blockOffs := 0, valid := c.valid })
  else .inl (.inl (.ok { reads := c.reads, res := .error .enoent }))

/-- The step over a node by its length. -/
def advance (buf : List UInt8) (blockOffs : UInt32) : Except Fault UInt32 := do
  let totlen ← readField a.endian 4 buf (blockOffs.toNat + 4)
  return (blockOffs + UInt32.ofNat totlen + 3) &&& 0xfffffffc

/-- The copy of a name for the caller. -/
def copyName (buf : List UInt8) (node nsize : Nat) : Except Fault (Option (List UInt8)) :=
  if a.outName then kstrndup a.memory buf (node + sizeofRawDirent) nsize else .ok none

/-- What is done with a node: the search ends, or goes on with the next node. -/
def visitNode (b : Block) (w : Walk) : Except Fault (Ret ⊕ Walk) := do
  let node := w.blockOffs.toNat
  if ← jffs2DirentValid a.endian b.buf node then
    let openwrt ← readBytes b.buf (node + sizeofRawDirent) openwrtName.length
    -- the marker stays valid for all later blocks
    if openwrt = openwrtName then
      let blockOffs ← advance a b.buf w.blockOffs
      return .inr { blockOffs := blockOffs, valid := true }
    else
      let name ← readBytes b.buf (node + sizeofRawDirent) a.name.length
      if name = a.name then
        -- a file in front of the marker is refused
        if w.valid then
          let nsize ← readField a.endian 1 b.buf (node + 28)
          let outName ← copyName a b.buf node nsize
          let file := { offs := b.cursor.offs, outName := outName, outNameLen := nsize }
          return .inl { reads := b.cursor.reads + 2, res := .ok file }
        else return .inl { reads := b.cursor.reads + 2, res := .error .einval }
      else
        let blockOffs ← advance a b.buf w.blockOffs
        return .inr { blockOffs := blockOffs, valid := w.valid }
  -- no valid entry: try the next word
  else return .inr { blockOffs := w.blockOffs + 4, valid := w.valid }

/-- A turn of the loop over the nodes. -/
def nodeTurn (b : Block) (w : Walk) : (Except Fault Ret ⊕ Cursor) ⊕ Walk :=
  if w.blockOffs < a.mtd.erasesize then
    match visitNode a b w with
    | .error fault => .inl (.inl (.error fault))
    | .ok (.inl ret) => .inl (.inl (.ok ret))
    | .ok (.inr w') => .inr w'
  else .inl (.inr (nextBlock a b.cursor (b.cursor.reads + 2) w.valid))

/-- `jffs2_find_file` from the read of number `reads` on, if it ends within `fuel` turns -/
def jffs2FindFile (offs reads fuel : Nat) : Option (Except Fault Ret) :=
  Loop.run (Loop.nest (blockTurn a) (nodeTurn a)) fuel
    (.inl { offs := offs, reads := reads, valid := false })

end HandsomeMod.Native.BcmWfi

/-!
## The splitters for two whole flash images

Embeds `ubifs_find`, `parse_bcm_wfi`, `cferam_bootflag_value`, `mtdsplit_parse_bcm_wfi_split`,
`sercomm_bootflag_value` and `mtdsplit_parse_ser_wfi` of `mtdsplit_bcm_wfi.c`. What is erased in the
boot flag of the second image is not read again.
-/

namespace HandsomeMod.Native.BcmWfi

open ForStd MtdCore

/-- `CFERAM_NAME`, `"cferam"` -/
def cferamName : List UInt8 := [0x63, 0x66, 0x65, 0x72, 0x61, 0x6d]

/-- `KERNEL_NAME`, `"vmlinux.lz"` -/
def kernelName : List UInt8 := [0x76, 0x6d, 0x6c, 0x69, 0x6e, 0x75, 0x78, 0x2e, 0x6c, 0x7a]

def ubiMagic : Nat := 0x55424923

/-- `CFE_MAGIC_PFX`, `"cferam."` -/
def cfeMagicPfx : List UInt8 := [0x63, 0x66, 0x65, 0x72, 0x61, 0x6d, 0x2e]

/-- `SERCOMM_MAGIC_PFX`, `"eRcOmM."` -/
def sercommMagicPfx : List UInt8 := [0x65, 0x52, 0x63, 0x4f, 0x6d, 0x4d, 0x2e]

/-- `CFE_MAGIC_LEN` and `SERCOMM_MAGIC_LEN` -/
def magicLen : Nat := 10

/-- Which allocations succeed: of `buf`, of the copies of the names, and of the tables of
`parse_bcm_wfi` and of its callers. -/
structure Memory where
  buf : Bool
  cfe1Name : Bool
  cfe2Name : Bool
  wfiParts : Bool
  parts : Bool

structure Setup where
  endian : Endian
  master : MtdInfo
  memory : Memory

/-- What a function returns, and the table that it leaves at `pparts`, if any. -/
structure Parsed where
  ret : Int
  pparts : Option (List MtdPartition)

variable (s : Setup)

/-! ### An image -/

/-- The variables of a loop over blocks, with the number of reads so far. -/
structure BlockScan where
  offs : Nat
  reads : Nat

def nextScan (mtd : MtdInfo) (c : BlockScan) : BlockScan :=
  { offs := c.offs + mtd.erasesize.toNat, reads := c.reads + 1 }

def ubifsTurn (mtd : MtdInfo) (stop : Nat) (c : BlockScan) :
    Except Fault (Except Errno Nat) ⊕ BlockScan :=
  if c.offs < stop then
    match mtdRead mtd c.reads c.offs 4 with
    | .error _ => .inr (nextScan mtd c)
    | .ok magic =>
      if magic.length ≠ 4 then .inr (nextScan mtd c)
      else if beField 4 magic 0 = ubiMagic then .inl (.ok (.ok c.offs))
      else .inr (nextScan mtd c)
  else .inl (.ok (.error .enoent))

/-- `ubifs_find`: the offset that it leaves where it returns 0. -/
def ubifsFind (mtd : MtdInfo) (offs size reads : Nat) : Fueled Fault (Except Errno Nat) :=
  fun fuel =>
    ExceptT.mk (Loop.run (ubifsTurn mtd (offs + size)) fuel { offs := offs, reads := reads })

/-- A search with `jffs2_find_file`. A size that is negative is 0 here: the range is empty. -/
def Setup.search (name : List UInt8) (offs size : Nat) (outName memory : Bool) : Search where
  endian := s.endian
  mtd := s.master
  name := name
  stop := offs + size
  outName := outName
  memory := memory

def Search.find (a : Search) (offs reads : Nat) : Fueled Fault Ret :=
  fun fuel => ExceptT.mk (jffs2FindFile a offs reads fuel)

def wfiCferam (cfeOff kernelOff : Nat) : MtdPartition where
  name := "cferam"
  offset := cfeOff
  size := kernelOff - cfeOff
  maskFlags := mtdWriteable

def wfiFirmware (off size kernelOff : Nat) : MtdPartition where
  name := "firmware"
  offset := kernelOff
  size := size - (kernelOff - off)

def wfiKernel (kernelOff rootfsOff : Nat) : MtdPartition where
  name := "kernel"
  offset := kernelOff
  size := rootfsOff - kernelOff

def wfiUbi (off size rootfsOff : Nat) : MtdPartition where
  name := "ubi"
  offset := rootfsOff
  size := size - (rootfsOff - off)

/-- The table of `parse_bcm_wfi`. -/
def wfiTable (off size : Nat) (cfeOff : Option Nat) (kernelOff rootfsOff : Nat) :
    List MtdPartition :=
  (cfeOff.map fun cfeOff => wfiCferam cfeOff kernelOff).toList ++
    [wfiFirmware off size kernelOff, wfiKernel kernelOff rootfsOff, wfiUbi off size rootfsOff]

/-- `BCM_WFI_PARTS`, and one more with a `cferam`. -/
def numParts (cfeOff : Option Nat) : Int := if cfeOff.isSome then 4 else 3

/-- What `parse_bcm_wfi` leaves, from what `ubifs_find` does. -/
def wfiParsed (off size : Nat) (cfeOff : Option Nat) (kernelOff : Nat) :
    Except Errno Nat → Parsed
  | .error rc => { ret := rc.toRet, pparts := none }
  | .ok rootfsOff =>
    if s.memory.wfiParts then
      { ret := numParts cfeOff, pparts := some (wfiTable off size cfeOff kernelOff rootfsOff) }
    else { ret := Errno.enomem.toRet, pparts := none }

/-- `parse_bcm_wfi`, behind the kernel. -/
def parseUbi (off size : Nat) (cfeOff : Option Nat) (kernelOff reads : Nat) :
    Fueled Fault Parsed := fun fuel => do
  let rootfsOff := kernelOff + s.master.erasesize.toNat
  let found ← ubifsFind s.master rootfsOff (size - (rootfsOff - off)) reads fuel
  return wfiParsed s off size cfeOff kernelOff found

/-- `parse_bcm_wfi`, behind the `cferam`. -/
def parseKernel (off size : Nat) (cfeOff : Option Nat) (kernelOff reads : Nat) :
    Fueled Fault Parsed := fun fuel => do
  let a := s.search kernelName kernelOff (size - (kernelOff - off)) false false
  let found ← a.find kernelOff reads fuel
  match found.res with
  | .error rc => return { ret := rc.toRet, pparts := none }
  | .ok file => parseUbi s off size cfeOff file.offs found.reads fuel

/-- `parse_bcm_wfi` from the read of number `reads` on -/
def parseBcmWfi (off size reads : Nat) (cfePart : Bool) : Fueled Fault Parsed := fun fuel =>
  if cfePart then do
    let found ← (s.search cferamName off size false false).find off reads fuel
    match found.res with
    | .error rc => return { ret := rc.toRet, pparts := none }
    | .ok file =>
      parseKernel s off size (some file.offs) (file.offs + s.master.erasesize.toNat) found.reads
        fuel
  else parseKernel s off size none off reads fuel

/-! ### Two images -/

def img1 : MtdPartition := { name := "img1", offset := 0, size := s.master.size / 2 }

def img2 : MtdPartition :=
  { name := "img2", offset := s.master.size / 2, size := s.master.size - s.master.size / 2 }

/-- `active_off` and `active_size` -/
def active (first : Bool) : MtdPartition := if first then img1 s else img2 s

/-- `inactive_name`, `inactive_off` and `inactive_size` -/
def inactive (first : Bool) : MtdPartition := if first then img2 s else img1 s

/-- The table of a splitter for two images, from what `parse_bcm_wfi` has left. -/
def splitTable (first : Bool) (wfi : Parsed) : Except Fault Parsed :=
  if 0 < wfi.ret then
    if s.memory.parts then
      .ok
        { ret := wfi.ret + 1
          pparts := some ((wfi.pparts.getD []).take wfi.ret.toNat ++ [inactive s first]) }
    else .ok { ret := Errno.enomem.toRet, pparts := wfi.pparts }
  -- The table is written whether there is memory for it or not.
  else if s.memory.parts then .ok { ret := wfi.ret, pparts := some [img1 s, img2 s] }
  else .error .outOfBounds

/-- What the splitters for two images do with the active one. -/
def splitActive (first : Bool) (reads : Nat) (cfePart : Bool) : Fueled Fault Parsed := fun fuel => do
  let wfi ← parseBcmWfi s (active s first).offset (active s first).size reads cfePart fuel
  Fueled.lift (splitTable s first wfi)

def charToNum (c : UInt8) : Int := if 0x30 ≤ c ∧ c ≤ 0x39 then (c.toNat : Int) - 0x30 else 0

/-- The number behind the prefix of a boot flag. -/
def bootflagNum (digits : List UInt8) : Int :=
  charToNum (digits.getD 0 0) * 100 + charToNum (digits.getD 1 0) * 10 +
    charToNum (digits.getD 2 0) * 1

/-- `cferam_bootflag_value` of a string and the length that is given for it. -/
def cferamBootflagValue (name : Option (List UInt8)) (nameLen : Nat) : Except Fault Int :=
  match name with
  | none => .ok Errno.enoent.toRet
  | some name =>
    if magicLen ≤ nameLen then do
      let pfx ← readBytes (name ++ [0]) 0 cfeMagicPfx.length
      if pfx = cfeMagicPfx then
        let digits ← readBytes (name ++ [0]) cfeMagicPfx.length 3
        return bootflagNum digits
      else return Errno.enoent.toRet
    else .ok Errno.enoent.toRet

/-- The boot flag of the image with this `cferam`. -/
def cferamBootflag (cfe : Ret) : Except Fault Int :=
  match cfe.res with
  | .error _ => cferamBootflagValue none 0
  | .ok file => cferamBootflagValue file.outName file.outNameLen

/-- The search for the `cferam` of an image, with a copy of its name. -/
def cferamSearch (img : MtdPartition) (memory : Bool) : Search :=
  s.search cferamName img.offset img.size true memory

/-- `mtdsplit_parse_bcm_wfi_split` -/
def mtdsplitParseBcmWfiSplit : Fueled Fault Parsed := fun fuel =>
  if s.memory.buf then do
    let cfe1 ← (cferamSearch s (img1 s) s.memory.cfe1Name).find (img1 s).offset 0 fuel
    let cfe2 ← (cferamSearch s (img2 s) s.memory.cfe2Name).find (img2 s).offset cfe1.reads fuel
    let bf1 ← Fueled.lift (cferamBootflag cfe1)
    let bf2 ← Fueled.lift (cferamBootflag cfe2)
    splitActive s (bf2 ≤ bf1) cfe2.reads true fuel
  else return { ret := Errno.enomem.toRet, pparts := none }

def sercommTurn (mtd : MtdInfo) (bufLen : Nat) (c : BlockScan) : Except Fault Int ⊕ BlockScan :=
  if c.offs < mtd.size then
    match mtdRead mtd c.reads c.offs magicLen with
    | .error _ => .inr (nextScan mtd c)
    | .ok buf =>
      if bufLen < buf.length then .inl (.error .outOfBounds)
      else if buf.length ≠ magicLen then .inr (nextScan mtd c)
      else if buf.take sercommMagicPfx.length ≠ sercommMagicPfx then .inr (nextScan mtd c)
      else .inl (.ok (bootflagNum (buf.drop sercommMagicPfx.length)))
  else .inl (.ok Errno.enoent.toRet)

/-- `sercomm_bootflag_value` with a buffer of `bufLen` bytes -/
def sercommBootflagValue (mtd : MtdInfo) (bufLen : Nat) : Fueled Fault Int := fun fuel =>
  ExceptT.mk (Loop.run (sercommTurn mtd bufLen) fuel { offs := 0, reads := 0 })

/-- The boot flags say that the first image is the active one. Where they are the same, the second
one is erased. -/
def sercommFirst (bf1 bf2 : Int) : Bool :=
  let bf2 := if bf1 = bf2 ∧ 0 ≤ bf2 then Errno.enoent.toRet else bf2
  decide (bf2 ≤ bf1)

/-- `mtdsplit_parse_ser_wfi`, with the devices named `bootflag1` and `bootflag2` -/
def mtdsplitParseSerWfi (mtdBf1 mtdBf2 : Option MtdInfo) : Fueled Fault Parsed := fun fuel =>
  match mtdBf1, mtdBf2 with
  | some mtdBf1, some mtdBf2 =>
    if s.memory.buf then do
      let bf1 ← sercommBootflagValue mtdBf1 s.master.erasesize.toNat fuel
      let bf2 ← sercommBootflagValue mtdBf2 s.master.erasesize.toNat fuel
      splitActive s (sercommFirst bf1 bf2) 0 false fuel
    else return { ret := Errno.enomem.toRet, pparts := none }
  | _, _ => return { ret := Errno.enoent.toRet, pparts := none }

end HandsomeMod.Native.BcmWfi
