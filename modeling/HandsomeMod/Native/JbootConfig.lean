import HandsomeMod.ForStd.Bits

/-!
# `jboot_config_read`

Embeds `jboot_checksum`, `find_header`, the functions that use its table, and `main` behind its
options. Pointers have `w` bits and are offsets from the buffer, words have the byte order of the
machine. An access outside of the buffer or of the table, and a use of an entry that was not written,
are faults.
-/

namespace HandsomeMod.Native.JbootConfig

open ForStd

/-- `STAG_SIZE` -/
def stagSize : Nat := 16

/-- `CSXF_SIZE` -/
def csxfSize : Nat := 16

/-- `CSXF_MAGIC` -/
def csxfMagic : Nat := 0x5343

/-- `MAX_DATA_HEADER` -/
def maxDataHeader : Nat := 128

/-- `DATA_HEADER_UNKNOWN` -/
def dataHeaderUnknown : Nat := 0x8000

/-- `DATA_HEADER_EEPROM` -/
def dataHeaderEeprom : UInt8 := 0xf5

/-- `DATA_HEADER_CONFIG` -/
def dataHeaderConfig : UInt8 := 0x42

/-- `DATA_HEADER_SIZE` -/
def dataHeaderSize : Nat := 6

/-- `DATA_HEADER_ID_MAC` -/
def dataHeaderIdMac : UInt8 := 0x30

/-- `DATA_HEADER_ID_CAL` -/
def dataHeaderIdCal : UInt8 := 0

/-- `tmp_hdr` of `find_header` -/
def tmpHdr : List UInt8 := [0x02, 0x02, 0x24, 0x2b]

inductive Stop where
  /-- A read outside of the buffer. -/
  | read
  /-- A write outside of the buffer or of the table. -/
  | write
  /-- An entry of the table that was not written. -/
  | uninit
  /-- The turns of the model do not suffice. -/
  | fuel
  deriving DecidableEq, Repr

/-- The byte order and the size of pointers of a machine. -/
structure Machine where
  endian : Endian
  w : Nat

variable (k : Machine)

/-- The byte that a pointer points to. -/
def byteAt (buf : List UInt8) (p : Nat) : Except Stop UInt8 :=
  if p % 2 ^ k.w < buf.length then .ok (buf.getD (p % 2 ^ k.w) 0) else .error .read

/-- A word of `n` bytes. -/
def load (buf : List UInt8) (n p : Nat) : Except Stop Nat :=
  if ∀ i < n, (p + i) % 2 ^ k.w < buf.length then
    .ok (k.endian.load n fun i => buf.getD ((p + i) % 2 ^ k.w) 0)
  else .error .read

/-- A `uint16_t` is stored. -/
def store16 (buf : List UInt8) (p v : Nat) : Except Stop (List UInt8) :=
  if ∀ i < 2, (p + i) % 2 ^ k.w < buf.length then
    .ok ((buf.set (p % 2 ^ k.w) (k.endian.store 2 v 0)).set ((p + 1) % 2 ^ k.w)
      (k.endian.store 2 v 1))
  else .error .write

/-- `!memcmp(ptr, hdr, 4)`, which ends at the first difference. -/
def startsWith (buf : List UInt8) (p : Nat) : List UInt8 → Except Stop Bool
  | [] => return true
  | c :: hdr => do
    let b ← byteAt k buf p
    if b = c then startsWith buf (p + 1) hdr else return false

/-! ### Checksum -/

/-- `while (counter >> 16) counter = (uint16_t) counter + (counter >> 16)`, which turns twice at
    most. -/
def foldCarry : Nat → Nat → Nat
  | 0, counter => counter
  | fuel + 1, counter =>
    if counter >>> 16 ≠ 0 then foldCarry fuel (counter % 2 ^ 16 + counter >>> 16) else counter

/-- The loop of `jboot_checksum` and what follows it. -/
def checksumLoop (buf : List UInt8) : Nat → Nat → Nat → Except Stop Nat
  | size + 2, p, counter => do
    let v ← load k buf 2 p
    checksumLoop buf size (p + 2) (foldCarry 2 (counter + v))
  | 1, p, counter => do
    let b ← byteAt k buf p
    return foldCarry 2 ((counter + b.toNat + (2 ^ 32 - 0xff)) % 2 ^ 32) % 2 ^ 16
  | 0, _, counter => return foldCarry 2 counter % 2 ^ 16

/-- `jboot_checksum` with a `size` of type `int` -/
def jbootChecksum (startVal : Nat) (buf : List UInt8) (p : Nat) (size : Int) : Except Stop Nat :=
  checksumLoop k buf size.toNat p startVal

/-- `(uint16_t) ~v` -/
def not16 (v : Nat) : Nat := 2 ^ 16 - 1 - v

/-! ### Headers -/

/-- The conditions of the first loop. -/
def isStag (buf : List UInt8) (p : Nat) : Except Stop Bool := do
  if ← startsWith k buf p tmpHdr then
    let tagChecksum ← load k buf 2 (p + 14)
    let sum ← jbootChecksum k 0 buf p (stagSize - 2 : Nat)
    return tagChecksum = not16 sum
  else return false

/-- The first loop: the pointer behind it. -/
def stagLoop (buf : List UInt8) : Nat → Nat → Except Stop Nat
  | 0, _ => .error .fuel
  | fuel + 1, p =>
    if p % 2 ^ 32 ≤ buf.length then do
      if ← isStag k buf p then return p else stagLoop buf fuel (p + 1)
    else return p

/-- `raw_length + CSXF_SIZE` as an `int` -/
def csxfLength (rawLength : Nat) : Int :=
  let n : Nat := (rawLength + csxfSize) % 2 ^ 32
  if n < 2 ^ 31 then n else (n : Int) - 2 ^ 32

/-- The tests of the CSXF header: whether it is taken, and the buffer. -/
def checkCsxf (buf : List UInt8) (p : Nat) : Except Stop (Bool × List UInt8) := do
  let magic ← load k buf 2 p
  if magic ≠ csxfMagic then return (false, buf)
  let tmpChecksum ← load k buf 2 (p + 2)
  let buf ← store16 k buf (p + 2) 0
  let rawLength ← load k buf 4 (p + 12)
  let sum ← jbootChecksum k 0 buf p (csxfLength rawLength)
  let buf ← store16 k buf (p + 2) (not16 sum)
  let checksum ← load k buf 2 (p + 2)
  return (tmpChecksum = checksum, buf)

/-- The last loop: the table. -/
def dataLoop (buf : List UInt8) : Nat → Nat → List Nat → Except Stop (List Nat)
  | 0, _, _ => .error .fuel
  | fuel + 1, p, dataTable =>
    if p % 2 ^ 32 ≤ buf.length then do
      let unknown ← load k buf 2 (p + 2)
      -- not a header: the next byte is tried
      if unknown ≠ dataHeaderUnknown then dataLoop buf fuel (p + 1) dataTable
      else
        let type ← byteAt k buf (p + 1)
        if type ≠ dataHeaderEeprom ∧ type ≠ dataHeaderConfig then
          dataLoop buf fuel (p + 1) dataTable
        -- the table of headers is full, the source writes behind it
        else if dataTable.length ≥ maxDataHeader then .error .write
        else
          let length ← load k buf 2 (p + 4)
          -- the data of the header are stepped over
          dataLoop buf fuel (p + dataHeaderSize + length) (dataTable ++ [p])
    else return dataTable

/-- What `find_header` returns, the entries that it wrote, and the buffer. -/
structure Found where
  ret : Int
  dataTable : List Nat
  buf : List UInt8
  deriving DecidableEq, Repr

/-- `find_header` with a buffer of the size that it is given -/
def findHeader (buf : List UInt8) (startOffset : Nat) : Except Stop Found := do
  let p ← stagLoop k buf (buf.length + 2) startOffset
  let (ok, buf) ← checkCsxf k buf (p + stagSize)
  -- `EXIT_FAILURE`
  if ¬ok then return ⟨1, [], buf⟩
  let dataTable ← dataLoop k buf (buf.length + 2) (p + stagSize + csxfSize) []
  return ⟨dataTable.length, dataTable, buf⟩

/-! ### Uses of the table -/

/-- `data_table[i]` -/
def entry (dataTable : List Nat) (i : Nat) : Except Stop Nat :=
  match dataTable[i]? with
  | some p => .ok p
  | none => .error .uninit

/-- What is printed of a header. -/
structure Printed where
  id : UInt8
  type : UInt8
  unknown : Nat
  data : List UInt8
  deriving DecidableEq, Repr

/-- `n` bytes of `data` -/
def dataBytes (buf : List UInt8) (p n : Nat) : Except Stop (List UInt8) :=
  (List.range n).mapM fun i => byteAt k buf (p + dataHeaderSize + i)

def printDataHeader (buf : List UInt8) (p : Nat) : Except Stop Printed := do
  let id ← byteAt k buf p
  let type ← byteAt k buf (p + 1)
  let unknown ← load k buf 2 (p + 2)
  let length ← load k buf 2 (p + 4)
  let data ← dataBytes k buf p length
  return ⟨id, type, unknown, data⟩

/-- The addresses that are printed. -/
def printMac (buf : List UInt8) (dataTable : List Nat) (cnt : Nat) :
    Except Stop (List (List UInt8)) := do
  let macs ← (List.range cnt).mapM fun i => do
    let p ← entry dataTable i
    let type ← byteAt k buf (p + 1)
    let id ← byteAt k buf p
    if type = dataHeaderConfig ∧ id = dataHeaderIdMac then return [← dataBytes k buf p 6]
    else return []
  return macs.flatten

/-- The data that is written, from the header `i` on. -/
def writeEeprom (buf : List UInt8) (dataTable : List Nat) :
    List Nat → Except Stop (Option (List UInt8))
  | [] => return none
  | i :: is => do
    let p ← entry dataTable i
    let type ← byteAt k buf (p + 1)
    let id ← byteAt k buf p
    if type = dataHeaderEeprom ∧ id = dataHeaderIdCal then
      let length ← load k buf 2 (p + 4)
      return some (← dataBytes k buf p length)
    else writeEeprom buf dataTable is

/-- The options. -/
structure Options where
  /-- `print_data || verbose` -/
  print : Bool
  macPrint : Bool
  ofname : Bool
  startOffset : UInt32

structure Output where
  headers : List Printed
  macs : List (List UInt8)
  eeprom : Option (List UInt8)
  ret : Int
  deriving DecidableEq, Repr

/-- `main` behind the options, with a file that was read, or none; `written` tells whether
    `write_file` succeeds. -/
def main (opts : Options) (written : Bool) (file : Option (List UInt8)) : Except Stop Output :=
  match file with
  | none => return ⟨[], [], none, 1⟩
  | some buffer => do
    -- an empty file and one without a header end the program with 0
    if buffer.length = 0 then return ⟨[], [], none, 0⟩
    let found ← findHeader k buffer opts.startOffset.toNat
    if found.ret ≤ 0 then return ⟨[], [], none, 0⟩
    let cnt := found.ret.toNat
    let headers ← if opts.print then
        (List.range cnt).mapM fun i => do printDataHeader k found.buf (← entry found.dataTable i)
      else pure []
    let macs ← if opts.macPrint then printMac k found.buf found.dataTable cnt else pure []
    if opts.ofname then
      let eeprom ← writeEeprom k found.buf found.dataTable (List.range cnt)
      return ⟨headers, macs, eeprom, if eeprom.isSome ∧ written then 0 else 1⟩
    else return ⟨headers, macs, none, 0⟩

end HandsomeMod.Native.JbootConfig
