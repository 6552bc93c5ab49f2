import HandsomeMod.ForStd.Crc
import HandsomeMod.ForStd.Mem

/-!
# The partition table generator

Embeds `gen_gptable` of `ptgen.c`. Opening and writing the output file succeed. Signed arithmetic
wraps where the C standard leaves it undefined.
-/

namespace HandsomeMod.Native.Ptgen

open ForStd

/-! ### Data -/

/-- `guid_t` -/
abbrev Guid := Vector UInt8 16

/-- `GUID_INIT` -/
def guidInit (a b c : Nat) (d0 d1 d2 d3 d4 d5 d6 d7 : UInt8) : Guid :=
  #v[UInt8.ofNat a, UInt8.ofNat (a >>> 8), UInt8.ofNat (a >>> 16), UInt8.ofNat (a >>> 24),
    UInt8.ofNat b, UInt8.ofNat (b >>> 8), UInt8.ofNat c, UInt8.ofNat (c >>> 8),
    d0, d1, d2, d3, d4, d5, d6, d7]

def guidPartitionSystem : Guid :=
  guidInit 0xC12A7328 0xF81F 0x11d2 0xBA 0x4B 0x00 0xA0 0xC9 0x3E 0xC9 0x3B

def guidPartitionBasicData : Guid :=
  guidInit 0xEBD0A0A2 0xB9E5 0x4433 0x87 0xC0 0x68 0xB6 0xB7 0x26 0x99 0xC7

def guidPartitionBiosBoot : Guid :=
  guidInit 0x21686148 0x6449 0x6E6F 0x74 0x4E 0x65 0x65 0x64 0x45 0x46 0x49

def gptSignature : Nat := 0x5452415020494645

def gptRevision : Nat := 0x00010000

def gptHeaderSize : Nat := 92

def gptEntrySize : Nat := 128

def gptEntryMax : Nat := 128

def gptEntryNameSize : Nat := 72

def gptHeaderSector : Nat := 1

def gptFirstEntrySector : Nat := 2

def mbrDiskSignatureOffset : Nat := 440

def mbrPartitionEntryOffset : Nat := 446

def mbrBootSignatureOffset : Nat := 510

def diskSectorSize : Nat := 512

/-- The sectors of the entry array. -/
def gptEntrySectors : Nat := gptEntrySize * gptEntryMax / diskSectorSize

/-- The options of `main`, which refuses a number of heads or sectors that is not positive. -/
structure Cfg where
  endian : Endian
  heads : Nat
  sectors : Nat
  kbAlign : Int
  active : Nat
  ignoreNullSizedPartition : Bool
  heads_pos : 0 < heads
  sectors_pos : 0 < sectors
  heads_lt : heads < 2 ^ 31
  sectors_lt : sectors < 2 ^ 31
  kbAlign_ge : -(2 ^ 31) ≤ kbAlign
  kbAlign_lt : kbAlign < 2 ^ 31

/-- `struct partinfo` -/
structure PartInfo where
  start : UInt64
  size : UInt64
  type : UInt8

/-- `struct gpte` -/
structure Gpte where
  type : Guid
  guid : Guid
  start : UInt64
  «end» : UInt64
  attr : UInt64
  name : List UInt8

def Gpte.bytes (e : Gpte) : List UInt8 :=
  e.type.toList ++ e.guid.toList ++ leBytes 8 e.start.toNat ++ leBytes 8 e.end.toNat ++
    leBytes 8 e.attr.toNat ++ e.name

/-- An entry after `memset`. -/
def Gpte.zero : Gpte where
  type := Vector.replicate 16 0
  guid := Vector.replicate 16 0
  start := 0
  «end» := 0
  attr := 0
  name := List.replicate gptEntryNameSize 0

/-- The fields of `struct gpth` that are not constant. -/
structure Gpth where
  crc32 : UInt32
  alternate : UInt64
  lastUsable : UInt64
  diskGuid : Guid
  entryCrc32 : UInt32

/-- `first_usable` -/
def firstUsable : Nat := gptFirstEntrySector + gptEntrySectors

def Gpth.bytes (h : Gpth) : List UInt8 :=
  leBytes 8 gptSignature ++ leBytes 4 gptRevision ++ leBytes 4 gptHeaderSize ++
    leBytes 4 h.crc32.toNat ++ leBytes 4 0 ++ leBytes 8 gptHeaderSector ++
    leBytes 8 h.alternate.toNat ++ leBytes 8 firstUsable ++ leBytes 8 h.lastUsable.toNat ++
    h.diskGuid.toList ++ leBytes 8 gptFirstEntrySector ++ leBytes 4 gptEntryMax ++
    leBytes 4 gptEntrySize ++ leBytes 4 h.entryCrc32.toNat

/-! ### Rounding -/

/-- An `unsigned long` passed as `long`. -/
def toLong (sect : UInt64) : Int := sect.toBitVec.toInt

/-- `heads * sectors` in an `int` -/
def cylSize (c : Cfg) : Int := ((c.heads * c.sectors : Nat) : Int).bmod (2 ^ 32)

def roundToCyl (c : Cfg) (sect : UInt64) : UInt64 :=
  UInt64.ofInt (toLong sect + cylSize c - (toLong sect).tmod (cylSize c))

def roundToKb (c : Cfg) (sect : UInt64) : UInt64 :=
  UInt64.ofInt (((toLong sect - 1).tdiv c.kbAlign + 1) * c.kbAlign)

def toChs (c : Cfg) (sect : UInt64) : List UInt8 :=
  let s := (toLong sect).tmod c.sectors + 1
  let sect := (toLong sect).tdiv c.sectors
  let h := sect.tmod c.heads
  let cyl := (sect.tdiv c.heads).bmod (2 ^ 32)
  [UInt8.ofInt h, UInt8.ofInt s ||| (UInt8.ofInt (cyl >>> 2) &&& 0xC0), UInt8.ofInt cyl]

/-! ### Entries -/

/-- `init_utf16`: the units that are stored, `bufsize` of them at most. -/
def initUtf16 : Nat → List UInt8 → List UInt16
  | 0, _ => []
  | _ + 1, [] => [0]
  | n + 1, b :: str =>
    let tail := fun k => (str.getD k 0 &&& 0x3F).toUInt16
    if b = 0 then [0]
    else if b &&& 0x80 = 0 then b.toUInt16 :: initUtf16 n str
    else if b &&& 0xE0 = 0xC0 then
      ((b &&& 0x1F).toUInt16 <<< 6 ||| tail 0) :: initUtf16 n (str.drop 1)
    else if b &&& 0xF0 = 0xE0 then
      ((b &&& 0x0F).toUInt16 <<< 12 ||| tail 0 <<< 6 ||| tail 1) :: initUtf16 n (str.drop 2)
    else 0x3F :: initUtf16 n str

/-- The zeroed name field after `init_utf16`. -/
def nameOf (str : String) : List UInt8 :=
  let units := initUtf16 (gptEntryNameSize / 2) str.toUTF8.toList
  let bytes := units.flatMap fun u => leBytes 2 u.toNat
  bytes ++ List.replicate (gptEntryNameSize - bytes.length) 0

/-- `guid.b[sizeof(guid_t) - 1] += n` -/
def Guid.bump (g : Guid) (n : Nat) : Guid := g.set 15 (g[15] + UInt8.ofNat n)

/-- Where a partition starts behind the cursor `sect`, and the cursor behind it. -/
def placePart (c : Cfg) (sect : UInt64) (p : PartInfo) : Option (UInt64 × UInt64) :=
  let next := fun start : UInt64 =>
    let sect := start + p.size * 2
    if c.kbAlign = 0 then roundToCyl c sect else sect
  let start := sect + UInt64.ofNat c.sectors
  if p.start ≠ 0 then
    -- "Invalid start %ld for partition %d!"
    if p.start * 2 < start then none
    else some (p.start * 2, next (p.start * 2))
  else if c.kbAlign ≠ 0 then some (roundToKb c start, next (roundToKb c start))
  else some (start, next start)

/-- Partition `i` gets the type of an EFI system partition. -/
def isSystem (c : Cfg) (i : Nat) (p : PartInfo) : Prop := p.type = 0xEF ∨ i + 1 = c.active

instance (c : Cfg) (i : Nat) (p : PartInfo) : Decidable (isSystem c i p) :=
  inferInstanceAs (Decidable (_ ∨ _))

def partType (c : Cfg) (i : Nat) (p : PartInfo) : Guid :=
  if isSystem c i p then guidPartitionSystem else guidPartitionBasicData

/-- The entry of partition `i`. -/
def partEntry (c : Cfg) (guid : Guid) (i : Nat) (p : PartInfo) (start sect : UInt64) : Gpte where
  type := partType c i p
  guid := guid.bump (i + 1)
  start := start
  «end» := sect - 1
  attr := 0
  name :=
    if isSystem c i p then nameOf "EFI System Partition" else List.replicate gptEntryNameSize 0

/-- The loop over the partitions, from partition `i` on: the cursor and the entries. -/
def genEntries (c : Cfg) (guid : Guid) :
    List PartInfo → Nat → UInt64 → (Nat → Gpte) → Option (UInt64 × (Nat → Gpte))
  | [], _, sect, gpte => some (sect, gpte)
  | p :: parts, i, sect, gpte =>
    if p.size = 0 then
      -- "Invalid size in partition %d!"
      if c.ignoreNullSizedPartition then genEntries c guid parts (i + 1) sect gpte else none
    else
      match placePart c sect p with
      | none => none
      | some (start, sect) =>
        genEntries c guid parts (i + 1) sect
          (Function.update gpte i (partEntry c guid i p start sect))

/-- The entry of the BIOS boot partition, which takes the last one `e`. The name stays that of a
    128th partition. -/
def bootEntry (c : Cfg) (guid : Guid) (e : Gpte) : Gpte :=
  { e with
    type := guidPartitionBiosBoot
    guid := guid.bump gptEntryMax
    start := UInt64.ofNat firstUsable
    «end» :=
      (if c.kbAlign ≠ 0 then roundToKb c (UInt64.ofNat c.sectors)
        else UInt64.ofNat c.sectors) - 1 }

/-! ### The disk -/

/-- `gpt_crc32` -/
def gptCrc32 (buf : List UInt8) : UInt32 := Crc.accumulate 0xffffffff buf ^^^ 0xffffffff

/-- The array of entries in memory. -/
def gpteMem (gpte : Nat → Gpte) : Mem :=
  fun k => (gpte (k / gptEntrySize)).bytes.getD (k % gptEntrySize) 0

def gpteBytes (gpte : Nat → Gpte) : List UInt8 :=
  bytesAt (gpteMem gpte) 0 (gptEntrySize * gptEntryMax)

/-- The header with both checksums. -/
def gpthOf (guid : Guid) (end' : UInt64) (gpte : Nat → Gpte) : Gpth :=
  let gpth : Gpth :=
    { crc32 := 0
      alternate := end'
      lastUsable := end' - UInt64.ofNat gptEntrySectors - 1
      diskGuid := guid
      entryCrc32 := gptCrc32 (gpteBytes gpte) }
  { gpth with crc32 := gptCrc32 gpth.bytes }

/-- The protective `struct pte`. Its `active` byte is not set. -/
def pteBytes (c : Cfg) (active : UInt8) (end' : UInt64) : List UInt8 :=
  active :: toChs c (UInt64.ofNat gptHeaderSector) ++ [0xEE] ++ toChs c end' ++
    leBytes 4 gptHeaderSector ++ leBytes 4 end'.toNat

/-- `gen_gptable`: the output file, or none after an error. `active` is what the stack held. -/
def genGptable (c : Cfg) (signature : UInt32) (guid : Guid) (active : UInt8)
    (parts : List PartInfo) : Option Mem :=
  match genEntries c guid parts 0 0 (fun _ => Gpte.zero) with
  | none => none
  | some (sect, gpte) =>
    let gpte :=
      -- the last entry is taken by the boot partition
      Function.update gpte (gptEntryMax - 1) (bootEntry c guid (gpte (gptEntryMax - 1)))
    let end' := sect + UInt64.ofNat c.sectors - 1
    let m : Mem := fun _ => 0
    -- the protective MBR
    let m := writeBytes m mbrDiskSignatureOffset
      (bytesAt (c.endian.store 4 signature.toNat) 0 4)
    let m := writeBytes m mbrPartitionEntryOffset (pteBytes c active end')
    let m := writeBytes m mbrBootSignatureOffset [0x55, 0xaa]
    -- the header and, behind it, the entries
    let m := writeBytes m (mbrBootSignatureOffset + 2) (gpthOf guid end' gpte).bytes
    some (writeBytes m (gptFirstEntrySector * diskSectorSize) (gpteBytes gpte))

end HandsomeMod.Native.Ptgen

/-!
## MBR partition tables

Embeds `to_kbytes` and `gen_ptable` of `ptgen.c`, with what `main` makes of the options `-p`. The
output file starts empty.
-/

namespace HandsomeMod.Native.Ptgen.Mbr

open ForStd

/-! ### Options -/

/-- A size or a start in an option: what `strtoul` returns for it, and what is behind the number -/
structure Arg where
  number : UInt64
  «end» : List UInt8

/-- The switch of `to_kbytes` -/
def Arg.exp (a : Arg) : Option Nat :=
  match a.end with
  | [] => some 0
  | c :: garbage =>
    if garbage ≠ [] then none
    else if c = 0x6b ∨ c = 0x4b then some 0
    else if c = 0x6d ∨ c = 0x4d then some 1
    else if c = 0x67 ∨ c = 0x47 then some 2
    else none

/-- `to_kbytes` -/
def toKbytes (a : Arg) : UInt64 :=
  match a.exp with
  | none => 0
  | some exp => a.number * UInt64.ofNat (1024 ^ exp)

/-- `-p size[@start]`, with the type of the `-t` before it -/
structure PartOpt where
  size : Arg
  start : Option Arg
  type : UInt8

/-- `parts[part]` -/
def PartOpt.info (o : PartOpt) : PartInfo where
  start := o.start.elim 0 toKbytes
  size := toKbytes o.size
  type := o.type

/-! ### Entries -/

/-- MBR_ENTRY_MAX -/
def mbrEntryMax : Nat := 4

/-- `struct pte` -/
structure Pte where
  active : UInt8
  chsStart : List UInt8
  type : UInt8
  chsEnd : List UInt8
  start : UInt32
  length : UInt32

def Pte.bytes (e : Pte) : List UInt8 :=
  [e.active] ++ e.chsStart ++ [e.type] ++ e.chsEnd ++ leBytes 4 e.start.toNat ++
    leBytes 4 e.length.toNat

/-- An entry after `memset`. -/
def Pte.zero : Pte where
  active := 0
  chsStart := [0, 0, 0]
  type := 0
  chsEnd := [0, 0, 0]
  start := 0
  length := 0

/-- The entry of partition `i`. -/
def mbrEntry (c : Cfg) (i : Nat) (p : PartInfo) (start len : UInt64) : Pte where
  active := if i + 1 = c.active then 0x80 else 0
  chsStart := toChs c start
  type := p.type
  chsEnd := toChs c (start + len - 1)
  start := start.toUInt32
  length := len.toUInt32

/-- The loop over the partitions, from partition `i` on: the entries, and start and length of each
    partition as they are printed. -/
def genPtes (c : Cfg) : List PartInfo → Nat → UInt64 → (Nat → Pte) →
    Option ((Nat → Pte) × List (UInt64 × UInt64))
  | [], _, _, pte => some (pte, [])
  | p :: parts, i, sect, pte =>
    if p.size = 0 then
      -- "Invalid size in partition %d!"
      if c.ignoreNullSizedPartition then genPtes c parts (i + 1) sect pte else none
    else
      match placePart c sect p with
      | none => none
      | some (start, sect) =>
        -- round_to_cyl divides by zero
        if c.kbAlign = 0 ∧ cylSize c = 0 then none
        else
          let len := sect - start
          (genPtes c parts (i + 1) sect
            (Function.update pte i (mbrEntry c i p start len))).map fun r =>
              (r.1, (start, len) :: r.2)

/-- `gen_ptable`: the output file and what was printed, or none after an error. -/
def genPtable (c : Cfg) (signature : UInt32) (parts : List PartInfo) :
    Option (Mem × List (UInt64 × UInt64)) :=
  match genPtes c parts 0 0 (fun _ => Pte.zero) with
  | none => none
  | some (pte, printed) =>
    let m : Mem := fun _ => 0
    let m := writeBytes m mbrDiskSignatureOffset
      (bytesAt (c.endian.store 4 signature.toNat) 0 4)
    let m := writeBytes m mbrPartitionEntryOffset
      ((List.range mbrEntryMax).flatMap fun i => (pte i).bytes)
    some (writeBytes m mbrBootSignatureOffset [0x55, 0xaa], printed)

end HandsomeMod.Native.Ptgen.Mbr
