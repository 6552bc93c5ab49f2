import HandsomeMod.ForStd.CText
import HandsomeMod.ForStd.Mem

/-!
# TP-Link safeloader images

Embeds the partition tables of `tplink-safeloader.c`: `make_partition_table`, `put_partitions` and
`generate_factory_image`, and `read_partition_table` and `extract_firmware_partition`, which read
them. A call of `error`, which ends the program, is a result of none. Allocations and writes of
files succeed.
-/

namespace HandsomeMod.Native.Safeloader

open ForStd

/-! ### Data -/

/-- `struct flash_partition_entry`; a name is a C string without its end. -/
structure FlashPartitionEntry where
  name : List UInt8
  base : UInt32
  size : UInt32
  deriving DecidableEq

/-- `struct image_partition_entry` -/
structure ImagePartitionEntry where
  name : List UInt8
  data : List UInt8

/-- What the image generator reads of `struct device_info`. -/
structure DeviceInfo where
  vendor : Option (List UInt8)
  partitions : List FlashPartitionEntry

/-- A file or the buffer it is written from. -/
structure File where
  mem : Mem
  size : Nat

/-- The size of a partition table. -/
def tableSize : Nat := 0x800

/-- Where the image partition table starts. -/
def firmwareOffset : Nat := 0x1014

def md5Salt : List UInt8 :=
  [0x7a, 0x2b, 0x15, 0xed, 0x9b, 0x98, 0x59, 0x6d, 0xe5, 0x04, 0xab, 0x44, 0xac, 0x2a, 0x9f, 0x4e]

/-! ### Writing tables -/

/-- `"<hdr> %s base 0x%05x size 0x%05x<tail>"` -/
def formatEntry (hdr tail name : List UInt8) (base size : UInt32) : List UInt8 :=
  hdr ++ ascii " " ++ name ++ ascii " base 0x" ++ hexText 5 base ++ ascii " size 0x" ++
    hexText 5 size ++ tail

def fwuphdr : List UInt8 := ascii "fwup-ptn"

def flashhdr : List UInt8 := ascii "partition"

/-- A line of the image partition table. -/
def fwupLine : List UInt8 → UInt32 → UInt32 → List UInt8 := formatEntry fwuphdr (ascii "\t\x0d\n")

/-- A line of the flash partition table. -/
def flashLine : List UInt8 → UInt32 → UInt32 → List UInt8 := formatEntry flashhdr (ascii "\n")

/-- `snprintf` of a line at `pos` of a table at `tbl`, and the check behind it: the table, and the
position behind the line. -/
def putLine (m : Mem) (tbl pos : Nat) (line : List UInt8) : Option (Mem × Nat) :=
  if line.length > tableSize - pos - 1 then none
  else some (writeBytes m (tbl + pos) (line ++ [0]), pos + line.length)

/-- The loop of `make_partition_table`. -/
def flashLines (m : Mem) : Nat → List FlashPartitionEntry → Option (Mem × Nat)
  | s, [] => some (m, s)
  | s, p :: ps =>
    match putLine m 0 s (flashLine p.name p.base p.size) with
    | none => none
    | some (m, s) => flashLines m s ps

/-- `make_partition_table`: the data of the partition. `heap` is what `malloc` returns. -/
def makePartitionTable (heap : Mem) (p : List FlashPartitionEntry) : Option (List UInt8) :=
  match flashLines (writeBytes heap 0 [0x00, 0x04, 0x00, 0x00]) 4 p with
  | none => none
  | some (m, s) =>
    let s := s + 1
    some (bytesAt (writeBytes m s (List.replicate (tableSize - s) 0xff)) 0 tableSize)

/-- `put_partitions` from a partition on: the table at `buffer` goes on at `imagePt`, the data at
`base`. -/
def putPartitions (flashParts : List FlashPartitionEntry) (buffer : Nat) :
    List ImagePartitionEntry → Nat → Nat → Mem → Option Mem
  | [], _, _, m => some m
  | part :: parts, imagePt, base, m =>
    match flashParts.find? fun e => e.name = part.name with
    -- no such flash partition
    | none => none
    | some e =>
      if part.data.length > e.size.toNat then none
      else
        let m := writeBytes m (buffer + base) part.data
        -- the line of the table, over the terminator of the one before
        let line := fwupLine part.name (UInt32.ofNat base) (UInt32.ofNat part.data.length)
        match putLine m buffer imagePt line with
        | none => none
        | some (m, imagePt) =>
          putPartitions flashParts buffer parts imagePt (base + part.data.length) m

/-- The bytes of all partitions. -/
def totalSize (parts : List ImagePartitionEntry) : Nat :=
  (parts.map fun part => part.data.length).sum

/-- `put32` -/
def put32 (m : Mem) (pos val : Nat) : Mem := writeBytes m pos ((List.range 4).map (storeBE 4 val))

/-- `generate_factory_image`. `md5` is the digest of the library. The memory goes on behind the
    buffer, so that the copy of a vendor string that is longer than the buffer has room here; the
    strings in `boards` have less than 64 bytes. -/
def generateFactoryImage (md5 : List UInt8 → Vector UInt8 16) (info : DeviceInfo)
    (parts : List ImagePartitionEntry) : Option File :=
  let len := 0x1814 + totalSize parts
  let m := put32 (fun _ => 0xff) 0 len
  let m :=
    match info.vendor with
    | none => m
    | some vendor => writeBytes (put32 m 0x14 vendor.length) 0x18 vendor
  (putPartitions info.partitions firmwareOffset parts 0 tableSize m).map fun m =>
    let digest := md5 (md5Salt ++ bytesAt m 0x14 ((len - 0x14) % 2 ^ 32))
    { mem := writeBytes m 0x04 digest.toList, size := len }

/-! ### Reading tables -/

/-- `add_flash_partition` to an array with the entries `l` at its start. -/
def addFlashPartition (maxEntries : Nat) (l : List FlashPartitionEntry) (name : List UInt8)
    (base size : Nat) : Option (List FlashPartitionEntry) :=
  if l.length ≥ maxEntries then none
  else some (l ++ [{ name := name, base := UInt32.ofNat base, size := UInt32.ofNat size }])

/-- The variables of the inner loop of `read_partition_table`: `left` is `end_part - ptr`. -/
structure Scan where
  ptr : List UInt8
  left : Nat
  name : List UInt8
  base : Nat
  entries : List FlashPartitionEntry

/-- A pass of the inner loop. The passes are counted down: pass 4 skips the header, 3 reads the name,
1 the base, 0 the size. -/
def scanElement (maxEntries pass : Nat) (s : Scan) : Option Scan :=
  match memchr s.ptr 0x20 s.left with
  | none => none
  | some endElement =>
    let next := s.ptr.drop (endElement + 1)
    let left := s.left - (endElement + 1)
    match pass with
    | 3 =>
      -- `%s` stops at the `NUL`, the field has 32 bytes
      let name := (s.ptr.take (min endElement 31)).takeWhile (· ≠ 0)
      some { s with ptr := next, left := left, name := name }
    | 1 => some { s with ptr := next, left := left, base := strtoul16 s.ptr }
    | 0 =>
      -- the size is the last word, so the line is done
      (addFlashPartition maxEntries s.entries s.name s.base (strtoul16 next)).map fun entries =>
        { s with ptr := next.drop (left + 1), left := 0, entries := entries }
    | _ => some { s with ptr := next, left := left }

/-- The inner loop with passes left. -/
def scanElements (maxEntries : Nat) : Nat → Scan → Option Scan
  | 0, s => some s
  | pass + 1, s =>
    if s.left = 0 then some s
    else (scanElement maxEntries pass s).bind (scanElements maxEntries pass)

/-- The outer loop of `read_partition_table` over what is left of the buffer. -/
def readLoop (parthdr : List UInt8) (maxEntries : Nat) :
    Nat → List UInt8 → List FlashPartitionEntry → Option (List FlashPartitionEntry)
  | 0, _, entries => some entries
  | fuel + 1, ptr, entries =>
    if parthdr.length < ptr.length ∧ ptr.take parthdr.length = parthdr then
      match memchr ptr 0x0a ptr.length with
      | none => some entries
      | some endPart =>
        match scanElements maxEntries 5
          { ptr := ptr, left := endPart, name := [], base := 0, entries := entries } with
        | none => none
        | some s => readLoop parthdr maxEntries fuel s.ptr s.entries
    else some entries

/-- `read_partition_table` into an empty array: what it returns, and the array. -/
def readPartitionTable (file : File) (offset maxEntries type : Nat) :
    Option (Nat × List FlashPartitionEntry) :=
  let parthdr := if type = 0 then some fwuphdr else if type = 1 then some flashhdr else none
  match parthdr with
  | none => none
  | some parthdr =>
    if file.size < offset + 2048 then none
    else
      let buf := (bytesAt file.mem offset 2048).set 2047 0
      if buf.take parthdr.length ≠ parthdr then some (1, [])
      else (readLoop parthdr maxEntries 2048 buf []).map fun entries => (0, entries)

/-- The loop of `write_partition` from `offset` of a partition at `pos` on. -/
def writeLoop (file : File) (pos size : Nat) : Nat → Nat → List UInt8 → Option (List UInt8)
  | 0, _, _ => none
  | fuel + 1, offset, out =>
    let count := if 4096 + offset ≤ size then 4096 else size - offset
    if count = 0 then some out
    else if file.size < pos + offset + count then none
    else
      let out := out ++ bytesAt file.mem (pos + offset) count
      if 4096 + offset ≤ size then writeLoop file pos size fuel (offset + 4096) out else some out

/-- `extract_firmware_partition`: the output file. -/
def extractFirmwarePartition (file : File) (offset : Nat) (entry : FlashPartitionEntry) :
    Option (List UInt8) :=
  writeLoop file (entry.base.toNat + offset) entry.size.toNat (entry.size.toNat / 4096 + 1) 0 []

end HandsomeMod.Native.Safeloader
