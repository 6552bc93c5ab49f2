import HandsomeMod.Native.Safeloader

/-!
# Building TP-Link safeloader images

Embeds `build_image` of `tplink-safeloader.c` with its split of the firmware partition, `read_file`
and `generate_sysupgrade_image`. A failed `assert` and a call of `error` before the image buffer is
allocated are results of none; files can be opened and read, and are smaller than `2 ^ 63` bytes.
`make_soft_version`, `make_support_list` and `make_extra_para` are given by what they return.
-/

namespace HandsomeMod.Native.Safeloader

open ForStd

/-! ### Layouts -/

/-- `MAX_PARTITIONS` -/
def maxPartitions : Nat := 32

/-- A slot of `partitions` of `struct device_info`: the name may be `NULL`. -/
structure Slot where
  name : Option (List UInt8)
  base : UInt32
  size : UInt32

/-- `partitions`, of which the first `maxPartitions + 1` slots are its own. -/
abbrev Partitions := Nat → Slot

/-- The slot of an entry. -/
def FlashPartitionEntry.slot (e : FlashPartitionEntry) : Slot :=
  { name := some e.name, base := e.base, size := e.size }

/-- A list of entries as the initialiser of `partitions`. -/
def slots (l : List FlashPartitionEntry) : Partitions := fun i =>
  match l[i]? with
  | none => { name := none, base := 0, size := 0 }
  | some e => e.slot

/-- What a loop over `partitions` that ends at a name of `NULL` sees from slot `i` on, with `left`
slots left; none where it leaves the array. -/
def entriesFrom (p : Partitions) : Nat → Nat → Option (List FlashPartitionEntry)
  | 0, _ => none
  | left + 1, i =>
    match (p i).name with
    | none => some []
    | some name =>
      (entriesFrom p left (i + 1)).map ({ name := name, base := (p i).base, size := (p i).size } :: ·)

/-- What a loop over `partitions` sees. -/
def entries (p : Partitions) : Option (List FlashPartitionEntry) :=
  entriesFrom p (maxPartitions + 1) 0

/-- A board's layout leaves a slot for the end. -/
structure Layout where
  entries : List FlashPartitionEntry
  length_le : entries.length ≤ maxPartitions

/-- What the build of an image reads of `struct device_info`. -/
structure Board where
  layout : Layout
  firstSysupgradePartition : List UInt8
  lastSysupgradePartition : List UInt8

/-! ### Splitting the firmware partition -/

/-- `ALIGN(x, 0x10000)` of a 64-bit number. -/
def align64k (x : Nat) : Nat := (x + (0x10000 - 1)) &&& (2 ^ 64 - 1 - (0x10000 - 1))

/-- The loop that keeps the index of the last entry with a name. -/
def lastIndex (name : List UInt8) : List FlashPartitionEntry → Nat → Option Nat → Option Nat
  | [], _, found => found
  | e :: es, i, found => lastIndex name es (i + 1) (if e.name = name then some i else found)

/-- The loop that moves the slots from `start` on up by one, from slot `i` down. -/
def shiftUp (start : Nat) : Nat → Partitions → Partitions
  | 0, p => p
  | i + 1, p =>
    if start ≤ i + 1 then shiftUp start i (Function.update p (i + 1 + 1) (p (i + 1))) else p

/-- Where the file system starts. -/
def fileSystemBase (sysupgrade : Bool) (firmwareBase : UInt32) (kernelSize : Nat) : UInt32 :=
  -- Align partition start to erase blocks for factory images only
  if sysupgrade then UInt32.ofNat (firmwareBase.toNat + kernelSize)
  else UInt32.ofNat (align64k (firmwareBase.toNat + kernelSize))

/-- The branch of `build_image` for a firmware partition at index `i`. -/
def splitFirmware (sysupgrade : Bool) (kernelSize : Nat) (p : Partitions) (i : Nat) :
    Option Partitions :=
  let firmware := p i
  if kernelSize > firmware.size.toNat then none
  else
    let p := shiftUp (i + 1) (maxPartitions - 1) p
    let base := fileSystemBase sysupgrade firmware.base kernelSize
    let p := Function.update p (i + 1)
      { name := some (ascii "file-system"), base := base, size := firmware.size - base }
    some (Function.update p i
      { name := some (ascii "os-image"), base := firmware.base, size := UInt32.ofNat kernelSize })

/-- `build_image` up to the parts: `partitions`, and the base of `file_system_partition`. -/
def splitLayout (sysupgrade : Bool) (kernelSize : Nat) (layout : Layout) :
    Option (Partitions × Option UInt32) :=
  match lastIndex (ascii "firmware") layout.entries 0 none with
  | none => some (slots layout.entries, none)
  | some i =>
    (splitFirmware sysupgrade kernelSize (slots layout.entries) i).map fun p =>
      (p, some (p (i + 1)).base)

/-! ### Parts -/

def jffs2EofMark : List UInt8 := [0xde, 0xad, 0xc0, 0xde]

/-- `read_file`: none for an empty file, of which `fread` reads nothing. -/
def readFile (name file : List UInt8) (addJffs2Eof : Bool) (fileSystemBase : Option UInt32) :
    Option ImagePartitionEntry :=
  if file.length = 0 then none
  else if addJffs2Eof then
    let len :=
      match fileSystemBase with
      | some base => align64k (file.length + base.toNat) + jffs2EofMark.length - base.toNat
      | none => align64k file.length + jffs2EofMark.length
    let fill := List.replicate (len - file.length - jffs2EofMark.length) 0xff
    some { name := name, data := file ++ fill ++ jffs2EofMark }
  else some { name := name, data := file }

/-- What `build_image` makes an image of. -/
structure Request where
  kernel : List UInt8
  rootfs : List UInt8
  addJffs2Eof : Bool
  softVersion : ImagePartitionEntry
  supportList : ImagePartitionEntry
  extraPara : Option ImagePartitionEntry

/-- `parts` of `build_image`. `heap` is what `malloc` returns for the partition table. -/
def imageParts (heap : Mem) (r : Request) (partitions : List FlashPartitionEntry)
    (fileSystemBase : Option UInt32) : Option (List ImagePartitionEntry) := do
  let table ← makePartitionTable heap partitions
  let osImage ← readFile (ascii "os-image") r.kernel false none
  let fileSystem ← readFile (ascii "file-system") r.rootfs r.addJffs2Eof fileSystemBase
  some ([{ name := ascii "partition-table", data := table }, r.softVersion, r.supportList, osImage,
    fileSystem] ++ r.extraPara.toList)

/-! ### Sysupgrade images -/

/-- A `memcpy` into the image, at a distance from its start. -/
structure Copy where
  pos : Int
  data : List UInt8

/-- A run of `generate_sysupgrade_image`: the bytes of its buffer, what it copies into it, and
whether it gets to its end; an `error` stops it. -/
structure SysupgradeImage where
  len : Nat
  copies : List Copy
  finished : Bool

/-- `flash_first_partition` and `flash_last_partition`, with their indices. -/
structure FlashRange where
  first : Option (Nat × FlashPartitionEntry)
  last : Option (Nat × FlashPartitionEntry)

/-- The loop that looks for the first and the last partition, from index `i` on. -/
def findRange (board : Board) : List FlashPartitionEntry → Nat → FlashRange → FlashRange
  | [], _, r => r
  | e :: es, i, r =>
    findRange board es (i + 1)
      (if e.name = board.firstSysupgradePartition then { r with first := some (i, e) }
      else if e.name = board.lastSysupgradePartition then { r with last := some (i, e) }
      else r)

/-- The part for a partition. -/
def findPart (parts : List ImagePartitionEntry) (name : List UInt8) : Option ImagePartitionEntry :=
  parts.find? fun part => part.name = name

/-- The loop that copies the parts of the partitions of the range. -/
def copyParts (parts : List ImagePartitionEntry) (firstBase : UInt32) :
    List FlashPartitionEntry → List Copy × Bool
  | [] => ([], true)
  | e :: es =>
    match findPart parts e.name with
    | none => copyParts parts firstBase es
    | some part =>
      if part.data.length > e.size.toNat then ([], false)
      else
        let r := copyParts parts firstBase es
        ({ pos := (e.base.toNat : Int) - firstBase.toNat, data := part.data } :: r.1, r.2)

/-- `generate_sysupgrade_image` -/
def generateSysupgradeImage (board : Board) (partitions : List FlashPartitionEntry)
    (parts : List ImagePartitionEntry) : Option SysupgradeImage :=
  match findRange board partitions 0 { first := none, last := none } with
  | { first := some (i, first), last := some (j, last) } =>
    if i < j then
      (findPart parts board.lastSysupgradePartition).map fun part =>
        let r := copyParts parts first.base ((partitions.drop i).take (j + 1 - i))
        { len := (last.base - first.base).toNat + part.data.length, copies := r.1, finished := r.2 }
    else none
  | _ => none

/-- `build_image` of a sysupgrade image. -/
def buildSysupgrade (heap : Mem) (board : Board) (r : Request) : Option SysupgradeImage := do
  let (p, fileSystemBase) ← splitLayout true r.kernel.length board.layout
  let partitions ← entries p
  let parts ← imageParts heap r partitions fileSystemBase
  generateSysupgradeImage board partitions parts

end HandsomeMod.Native.Safeloader
