import HandsomeMod.ForStd.Crc
import HandsomeMod.ForStd.Mem

/-!
# The TRX tool

Embeds `otrx_create`, `otrx_check` and `otrx_extract` of `otrx.c` on a little-endian host. A file is
the list of its bytes. Writes and allocations succeed.
-/

namespace HandsomeMod.Native.Otrx

open ForStd

def trxMagic : UInt32 := 0x30524448

def trxFlagsOffset : Nat := 12

def trxMaxParts : Nat := 3

/-- `sizeof(struct trx_header)` -/
def sizeofHdr : Nat := 28

/-- `struct trx_header` -/
structure TrxHeader where
  magic : UInt32
  length : UInt32
  crc32 : UInt32
  flags : UInt16
  version : UInt16
  offset : Nat → UInt32

def TrxHeader.bytes (h : TrxHeader) : List UInt8 :=
  leBytes 4 h.magic.toNat ++ leBytes 4 h.length.toNat ++ leBytes 4 h.crc32.toNat ++
    leBytes 2 h.flags.toNat ++ leBytes 2 h.version.toNat ++ leBytes 4 (h.offset 0).toNat ++
    leBytes 4 (h.offset 1).toNat ++ leBytes 4 (h.offset 2).toNat

/-- A 32-bit word of a header that was read. -/
def hdrWord (buf : List UInt8) (pos : Nat) : UInt32 :=
  UInt32.ofNat (loadLE 4 fun k => buf.getD (pos + k) 0)

/-- `otrx_crc32` over what `fread` returns, `min(1024, length)` bytes at a time until it returns
nothing: the checksum and what is left of `length`. -/
def crcLoop : Nat → List UInt8 → UInt32 → Nat → UInt32 × Nat
  | 0, _, crc32, length => (crc32, length)
  | fuel + 1, trx, crc32, length =>
    let buf := trx.take (min 1024 length)
    if buf.length = 0 then (crc32, length)
    else crcLoop fuel (trx.drop buf.length) (Crc.accumulate crc32 buf) (length - buf.length)

/-! ### Check -/

inductive Err where
  | eio
  | einval
  deriving DecidableEq, Repr

def otrxCheck (trx : List UInt8) (trxOffset : Nat) : Except Err Unit :=
  let hdr := (trx.drop trxOffset).take sizeofHdr
  if hdr.length ≠ sizeofHdr then .error .eio
  else if hdrWord hdr 0 ≠ trxMagic then .error .einval
  else
    let length := (hdrWord hdr 4).toNat
    if length < sizeofHdr then .error .einval
    else
      let data := trx.drop (trxOffset + trxFlagsOffset)
      let r := crcLoop (data.length + 1) data 0xffffffff (length - trxFlagsOffset)
      if r.2 ≠ 0 then .error .eio
      else if r.1 ≠ hdrWord hdr 8 then .error .einval
      else .ok ()

/-! ### Create -/

/-- The options of `otrx_create`, numbers as `strtol` returns them. -/
inductive Opt where
  /-- `-f file` -/
  | file (path : String)
  /-- `-A file` -/
  | append (path : String)
  /-- `-a alignment` -/
  | align (alignment : Nat)
  /-- `-b offset` -/
  | bound (offset : Int)
  deriving DecidableEq, Repr

/-- The variables of `otrx_create`, with the output file. -/
structure Create where
  trx : List UInt8
  offset : Nat → UInt32
  currIdx : Nat
  currOffset : Nat

variable (fs : String → Option (List UInt8))

/-- The loop of `otrx_create_append_file`, 1024 bytes of `rest` at a time. -/
def appendLoop : Nat → List UInt8 → List UInt8 → Nat → List UInt8 × Nat
  | 0, _, trx, length => (trx, length)
  | fuel + 1, rest, trx, length =>
    let buf := rest.take 1024
    if buf.length = 0 then (trx, length)
    else appendLoop fuel (rest.drop buf.length) (trx ++ buf) (length + buf.length)

/-- `otrx_create_append_file`: none for a file that cannot be opened. -/
def appendFile (trx : List UInt8) (inPath : String) : Option (List UInt8 × Nat) :=
  (fs inPath).map fun content => appendLoop (content.length + 1) content trx 0

/-- `otrx_create_append_zeros` -/
def appendZeros (trx : List UInt8) (length : Nat) : List UInt8 × Nat :=
  (trx ++ List.replicate length 0, length)

/-- `otrx_create_align` -/
def createAlign (trx : List UInt8) (currOffset alignment : Nat) : List UInt8 × Nat :=
  if currOffset &&& (alignment - 1) ≠ 0 then
    appendZeros trx (alignment - currOffset % alignment)
  else (trx, 0)

/-- `otrx_create_align` and the sum that follows it. -/
def Create.aligned (s : Create) (alignment : Nat) : Create :=
  let r := createAlign s.trx s.currOffset alignment
  { s with trx := r.1, currOffset := s.currOffset + r.2 }

/-- One option; none for `-ENOSPC`. -/
def createOpt (s : Create) : Opt → Option Create
  | .file path =>
    if s.currIdx ≥ trxMaxParts then none
    else
      match appendFile fs s.trx path with
      -- a file that cannot be read adds nothing, and the tool goes on
      | none => some (s.aligned 4)
      | some (trx, sbytes) =>
        let s : Create :=
          { trx := trx
            offset := Function.update s.offset s.currIdx (UInt32.ofNat s.currOffset)
            currIdx := s.currIdx + 1
            currOffset := s.currOffset + sbytes }
        some (s.aligned 4)
  | .append path =>
    match appendFile fs s.trx path with
    | none => some (s.aligned 4)
    | some (trx, sbytes) =>
      some ({ s with trx := trx, currOffset := s.currOffset + sbytes }.aligned 4)
  | .align alignment => some (s.aligned alignment)
  | .bound offset =>
    let sbytes := offset - s.currOffset
    -- the image is already longer
    if sbytes < 0 then some s
    else
      let r := appendZeros s.trx sbytes.toNat
      some { s with trx := r.1, currOffset := s.currOffset + r.2 }

/-- All options from a state on. -/
def createOpts (s : Create) (opts : List Opt) : Option Create := opts.foldlM (createOpt fs) s

/-- The output file positioned behind an empty header. -/
def Create.init : Create where
  trx := List.replicate sizeofHdr 0
  offset := fun _ => 0
  currIdx := 0
  currOffset := sizeofHdr

/-- `otrx_create_write_hdr` -/
def writeHdr (trx : List UInt8) (hdr : TrxHeader) : List UInt8 :=
  let hdr := { hdr with magic := trxMagic, version := 1 }
  let trx := hdr.bytes ++ trx.drop sizeofHdr
  let data := trx.drop trxFlagsOffset
  let length := (hdr.length.toUInt64 - UInt64.ofNat trxFlagsOffset).toNat
  let r := crcLoop (data.length + 1) data 0xffffffff length
  { hdr with crc32 := r.1 }.bytes ++ trx.drop sizeofHdr

/-- `otrx_create`: the file, or none if a fourth partition was asked for. -/
def otrxCreate (opts : List Opt) : Option (List UInt8) :=
  (createOpts fs Create.init opts).map fun s =>
    let s := s.aligned 0x1000
    writeHdr s.trx
      { magic := 0
        length := UInt32.ofNat s.currOffset
        crc32 := 0
        flags := 0
        version := 0
        offset := s.offset }

/-! ### Extract -/

/-- `otrx_extract_copy`: the output file. -/
def extractCopy (trx : List UInt8) (offset length : Nat) : Option (List UInt8) :=
  let buf := (trx.drop offset).take length
  if buf.length ≠ length then none else some buf

/-- What `otrx_extract` writes for partition `i`. -/
def otrxExtract (trx : List UInt8) (trxOffset i : Nat) : Option (List UInt8) :=
  let hdr := (trx.drop trxOffset).take sizeofHdr
  if hdr.length ≠ sizeofHdr then none
  else if hdrWord hdr 0 ≠ trxMagic then none
  else
    let offset := fun i => hdrWord hdr (16 + 4 * i)
    if offset i = 0 then none
    else
      let length :=
        if i + 1 ≥ trxMaxParts ∨ offset (i + 1) = 0 then hdrWord hdr 4 - offset i
        else offset (i + 1) - offset i
      extractCopy trx (trxOffset + (offset i).toNat) length.toNat

end HandsomeMod.Native.Otrx
