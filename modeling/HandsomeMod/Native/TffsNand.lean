import HandsomeMod.ForStd.Mem

/-!
# Reading TFFS 3 from NAND

Embeds `find_entry` of `fritz_tffs_nand_read.c`. A write outside an allocation and a read of a slot
that was not initialised end the search with a fault. Allocations and reads of good sectors succeed.
-/

namespace HandsomeMod.Native.TffsNand

open ForStd

def tffsIdEnd : Nat := 0xffffffff

def tffsEntryHeaderSize : Nat := 0x18

def tffsMaximumSegmentSize : Nat := 0x800 - tffsEntryHeaderSize

def tffsSectorSize : Nat := 0x0800

def tffsSegmentCleared : Nat := 0xffffffff

/-- A sector as `read_sector` and `read_sectoroob` read it, and whether it is good. -/
structure Sector where
  good : Bool
  readbuf : Mem
  oobbuf : Mem

/-- The machine, the options and the device. -/
structure Cfg where
  endian : Endian
  swapBytes : Bool
  readOobSectorHealth : Bool
  blocksize : Nat
  /-- `sizeof(struct tffs_entry_segment)`; the structure holds a length and a pointer. -/
  sizeofSegment : Nat
  sizeof_ge : 8 ≤ sizeofSegment

inductive Fault where
  | outOfBounds
  | uninitialised
  deriving Repr, DecidableEq

/-- `struct tffs_entry_segment` -/
inductive Slot where
  | uninit
  /-- `val` is NULL. -/
  | null
  | val (v : List UInt8)
  deriving DecidableEq

/-- `rev`, `segments` and `num_segments` -/
structure Search where
  rev : Nat
  segments : List Slot

/-- What `find_entry` reads of a sector with the right id. -/
structure Entry where
  rev : Nat
  seg : Nat
  nextSeg : Nat
  data : List UInt8

variable (c : Cfg)

def readUint32 (buf : Mem) (off : Nat) : Nat :=
  let tmp := c.endian.load 4 fun i => buf (off + i)
  if c.swapBytes then c.endian.beToCpu 4 tmp else tmp

namespace Sector

variable (sec : Sector)

def readId : Nat := readUint32 c sec.readbuf 0x00

def readLen : Nat := readUint32 c sec.readbuf 0x04

def readRev : Nat := readUint32 c sec.readbuf 0x0c

/-- The copies of the metadata in the OOB area are the same. -/
def oobOk : Bool :=
  readUint32 c sec.oobbuf 0x02 == sec.readId c && readUint32 c sec.oobbuf 0x06 == sec.readLen c &&
    readUint32 c sec.oobbuf 0x0a == sec.readRev c

def entry : Entry :=
  { rev := sec.readRev c
    seg := readUint32 c sec.readbuf 0x10
    nextSeg := readUint32 c sec.readbuf 0x14
    data := bytesAt sec.readbuf tffsEntryHeaderSize (sec.readLen c) }

end Sector

/-- `new_num_segs` -/
def Entry.newNumSegs (e : Entry) : Nat :=
  (if e.nextSeg = 0 then e.seg + 1 else e.nextSeg + 1) % 2 ^ 32

/-- `realloc` and `memset` of `segments` -/
def growSegments (segments : List Slot) (newNumSegs : Nat) : Except Fault (List Slot) :=
  let num := segments.length
  let segments := segments ++ List.replicate (newNumSegs - num) .uninit
  -- the offset is in slots, and was multiplied by the size of a slot before
  let start := num * c.sizeofSegment
  if start + (newNumSegs - num) > newNumSegs then .error .outOfBounds
  else .ok (segments.take start ++ List.replicate (newNumSegs - num) .null ++
    segments.drop (start + (newNumSegs - num)))

/-- The part of the loop for a sector with the right id. -/
def takeEntry (s : Search) (e : Entry) : Except Fault Search :=
  -- obsolete revision => ignore this
  if e.rev < s.rev then .ok s
  else
    -- newer revision => clear old data
    let s := if e.rev > s.rev then { rev := e.rev, segments := [] } else s
    if e.seg = tffsSegmentCleared then .ok s
    else do
      let segments ←
        if e.newNumSegs > s.segments.length then growSegments c s.segments e.newNumSegs
        else .ok s.segments
      if e.seg < segments.length then .ok { s with segments := segments.set e.seg (.val e.data) }
      else .error .outOfBounds

/-- The loop of `find_entry` over the sectors from `sector` on. -/
def findEntryLoop (id : Nat) : Nat → Bool → List Sector → Search → Except Fault Search
  | _, _, [], s => .ok s
  | sector, blockEnd, sec :: secs, s =>
    -- up to the next block nothing more is read
    if blockEnd then
      findEntryLoop id (sector + 1) (decide (sector * tffsSectorSize % c.blocksize ≠ 0)) secs s
    else if !sec.good then findEntryLoop id (sector + 1) false secs s
    else if c.readOobSectorHealth && !sec.oobOk c then findEntryLoop id (sector + 1) false secs s
    else if sec.readId c = tffsIdEnd then
      -- no more entries in this block
      findEntryLoop id (sector + 1) true secs s
    -- a length that no segment can have
    else if sec.readLen c > tffsMaximumSegmentSize then
      findEntryLoop id (sector + 1) false secs s
    else if sec.readId c = id then do
      let s ← takeEntry c s (sec.entry c)
      findEntryLoop id (sector + 1) false secs s
    else findEntryLoop id (sector + 1) false secs s

/-- The values of the slots, or `none` if one is missing. -/
def collect : List Slot → Except Fault (Option (List (List UInt8)))
  | [] => .ok (some [])
  | .uninit :: _ => .error .uninitialised
  | .null :: _ => .ok none
  | .val v :: slots => do
    let vs ← collect slots
    .ok (vs.map (v :: ·))

/-- `find_entry`; `none` is 0. -/
def findEntry (sectors : List Sector) (id : Nat) : Except Fault (Option (List UInt8)) := do
  let s ← findEntryLoop c id 0 false sectors { rev := 0, segments := [] }
  if s.segments.length = 0 then .ok none
  else
    match ← collect s.segments with
    | none => .ok none
    | some vals =>
      -- `len` is a 32-bit sum
      if vals.flatten.length % 2 ^ 32 < vals.flatten.length then .error .outOfBounds
      else .ok (some vals.flatten)

end HandsomeMod.Native.TffsNand

/-!
## Scanning a NAND device for TFFS 3

Embeds `scan_mtd` and `check_block` of `fritz_tffs_nand_read.c`, which build the map of good sectors
that `find_entry` uses. An access outside of the map and a division by zero end the scan with a
fault. The allocation of the map succeeds.
-/

namespace HandsomeMod.Native.TffsNand

open ForStd

def tffsBlockHeaderMagic : Nat := 0x41564d5f54464653

def tffsSectorsPerPage : Nat := 2

/-- What `MEMGETINFO` reports, and what `read_sector` and `read_sectoroob` read of a sector; none
where they fail. -/
structure Device where
  size : UInt32
  erasesize : UInt32
  readSector : Nat → Option Mem
  readSectoroob : Nat → Option Mem

/-- `struct tffs_sectors` -/
structure Sectors where
  numSectors : Nat
  sectors : Mem

inductive ScanFault where
  | outOfBounds
  | divisionByZero
  deriving Repr, DecidableEq

/-- The bytes of the map. -/
def Sectors.numBytes (s : Sectors) : Nat := (s.numSectors + 7) / 8

/-- `sector_mark_bad`; a number from `2 ^ 31` on is negative as an `int`. -/
def sectorMarkBad (s : Sectors) (num : Nat) : Except ScanFault Sectors :=
  if num / 8 < s.numBytes then
    let byte := s.sectors (num / 8) &&& ~~~(0x80 >>> UInt8.ofNat (num % 8))
    .ok { s with sectors := Function.update s.sectors (num / 8) byte }
  else .error .outOfBounds

/-- `sector_get_good` -/
def sectorGetGood (s : Sectors) (num : Nat) : Except ScanFault Bool :=
  if num / 8 < s.numBytes then
    .ok (s.sectors (num / 8) &&& (0x80 >>> UInt8.ofNat (num % 8)) != 0)
  else .error .outOfBounds

variable (c : Cfg) (dev : Device)

def readUint64 (buf : Mem) (off : Nat) : Nat :=
  let tmp := c.endian.load 8 fun i => buf (off + i)
  if c.swapBytes then c.endian.beToCpu 8 tmp else tmp

/-- `check_sector` -/
def checkSector (sector : Nat) : Bool :=
  if !c.readOobSectorHealth then true
  else
    match dev.readSectoroob sector with
    | none => false
    | some oobbuf =>
      -- block is bad, sector is bad
      oobbuf 0x00 == 0xff && oobbuf 0x01 == 0xff

/-- The checks of a block's header in `readbuf`. -/
def headerOk (readbuf : Mem) : Bool :=
  readUint64 c readbuf 0x00 == tffsBlockHeaderMagic &&
    readUint32 c readbuf 0x0c == tffsSectorsPerPage

/-- `bad`, for field `i` of the header of the block at `sector`; a 32-bit number. -/
def badSector (readbuf : Mem) (sector i : Nat) : Nat :=
  (sector + readUint64 c readbuf (0x1c + 8 * i)) % 2 ^ 32

/-- The loop of `check_block` over the fields from `i` on. -/
def markHeader (readbuf : Mem) (sector : Nat) : Nat → Nat → Sectors → Except ScanFault Sectors
  | 0, _, s => .ok s
  | left + 1, i, s => do
    let s ← sectorMarkBad s (badSector c readbuf sector i)
    markHeader readbuf sector left (i + 1) s

/-- `check_block` of the block at `sector` -/
def checkBlock (sector : Nat) (s : Sectors) : Except ScanFault (Bool × Sectors) :=
  if !checkSector c dev sector then .ok (false, s)
  else
    match dev.readSector sector with
    | none => .ok (false, s)
    | some readbuf =>
      if !headerOk c readbuf then .ok (false, s)
      else do
        let s ← markHeader c readbuf sector (readUint32 c readbuf 0x0c) 0 s
        .ok (true, s)

/-- A turn of the loop of `scan_mtd`: `block_ok` and the map. -/
def scanSector (sector : Nat) (blockOk : Bool) (s : Sectors) :
    Except ScanFault (Bool × Sectors) := do
  if dev.erasesize = 0 then .error .divisionByZero
  else if sector * tffsSectorSize % dev.erasesize.toNat = 0 then
    let (blockOk, s) ← checkBlock c dev sector s
    -- first sector of the block contains metadata => handle it like a bad sector
    let s ← sectorMarkBad s sector
    .ok (blockOk, s)
  -- all sectors of a bad block are bad
  else if !blockOk then
    let s ← sectorMarkBad s sector
    .ok (blockOk, s)
  else
    let good ← sectorGetGood s sector
    if !good || !checkSector c dev sector then
      let s ← sectorMarkBad s sector
      .ok (blockOk, s)
    else .ok (blockOk, s)

/-- The loop of `scan_mtd` from `sector` on, with `left` positions left below `info.size`. -/
def scanLoop : Nat → Nat → Bool → Nat → Sectors → Except ScanFault (Nat × Sectors)
  | 0, _, _, validBlocks, s => .ok (validBlocks, s)
  | left + 1, sector, blockOk, validBlocks, s => do
    let (blockOk, s) ← scanSector c dev sector blockOk s
    let start := sector * tffsSectorSize % dev.erasesize.toNat = 0
    scanLoop left (sector + 1) blockOk (if start ∧ blockOk then validBlocks + 1 else validBlocks) s

/-- `scan_mtd`: the valid blocks and the map. -/
def scanMtd : Except ScanFault (Nat × Sectors) :=
  let s := { numSectors := dev.size.toNat / tffsSectorSize, sectors := fun _ => 0xff }
  scanLoop c dev ((dev.size.toNat + tffsSectorSize - 1) / tffsSectorSize) 0 false 0 s

end HandsomeMod.Native.TffsNand
