import HandsomeMod.ForStd.Crc
import HandsomeMod.ForStd.Mem

/-!
# `trx`

Embeds `main` of `trx.c`. `size_t` and `unsigned long` have `w` bits, the arguments of the options
are the numbers that `strtoul` and `strtol` return, or none for an illegal string. Memory that was
allocated and not written holds anything. An access outside of the buffer is a fault.
-/

namespace HandsomeMod.Native.Trx

open ForStd

/-- `TRX_MAGIC` -/
def trxMagic : Nat := 0x30524448

/-- `TRX_MAX_LEN` -/
def trxMaxLen : Nat := 0x720000

/-- `sizeof(struct trx_header)` -/
def sizeofHeader : Nat := 32

/-- `sizeof(binheader)` -/
def sizeofBinheader : Nat := 32

/-- The offsets of the fields of `struct trx_header`. -/
def lenOffset : Nat := 4

def crc32Offset : Nat := 8

def flagVersionOffset : Nat := 12

def offsetsOffset (i : Nat) : Nat := 16 + 4 * i

inductive Stop where
  /-- `EXIT_FAILURE` -/
  | exit
  /-- An access outside of the buffer. -/
  | fault
  deriving DecidableEq, Repr

/-- The variables of `main`. -/
structure St where
  buf : Mem
  maxlen : Nat
  curLen : Nat
  fsmark : Nat
  i : Nat
  trxVersion : Nat
  /-- `in` is not `NULL` -/
  opened : Bool

/-- The options; a file is its content, or none if it cannot be opened. -/
inductive Opt (w : Nat) where
  /-- `-2` -/
  | version2
  /-- `-o`, and whether the file can be opened -/
  | output (opened : Bool)
  /-- `-m`, and what `realloc` returns: nothing, or memory with something behind what it keeps -/
  | maxlen (n : Option (BitVec w)) (memory : Option Mem)
  /-- `-a` -/
  | align (n : Option (BitVec w))
  /-- `-b` -/
  | absolute (n : Option (BitVec w))
  /-- `-x` -/
  | relative (n : Option (BitVec w))
  /-- `-f`, and a name without an option -/
  | file (content : Option (List UInt8))
  /-- `-A` -/
  | append (content : Option (List UInt8))
  /-- `-F` -/
  | fsmark (content : Option (List UInt8))
  /-- `-M` -/
  | magic (n : Option (BitVec w))
  /-- Any other option. -/
  | other

/-- The state behind `malloc`. -/
def St.init (heap : Mem) : St where
  buf := writeBytes heap 0 (leBytes 4 trxMagic)
  maxlen := trxMaxLen
  -- assume v1 header
  curLen := sizeofHeader - 4
  fsmark := 0
  i := 0
  trxVersion := 1
  opened := false

/-- `memcpy`, `memset` and so on to `buf + pos` -/
def St.write (s : St) (pos : Nat) (l : List UInt8) : Except Stop St :=
  if l.length = 0 ∨ pos + l.length ≤ s.maxlen then .ok { s with buf := writeBytes s.buf pos l }
  else .error .fault

/-- `memset(buf + cur_len, 0, n); cur_len += n` -/
def St.zeros (s : St) (n : Nat) : Except Stop St := do
  let s ← s.write s.curLen (List.replicate n 0)
  return { s with curLen := (s.curLen + n) % 2 ^ 32 }

/-- The bytes that are behind a multiple of 4. -/
def pad4 (n : Nat) : Nat := if n % 4 ≠ 0 then 4 - n % 4 else 0

variable {w : Nat}

/-- The file of `-f`, `-A` or `-F` is read and padded. -/
def St.readFile (w : Nat) (s : St) (content : Option (List UInt8)) : Except Stop St :=
  match content with
  | none => .error .exit
  | some content =>
    -- the end of the file is met if there are less bytes than `fread` is asked for
    if (s.maxlen + 2 ^ w - s.curLen) % 2 ^ w ≤ content.length then .error .exit
    else do
      let s ← s.write s.curLen content
      let s ← s.write (s.curLen + content.length) (List.replicate (pad4 content.length) 0)
      return { s with
        curLen := (s.curLen + (content.length + pad4 content.length)) % 2 ^ 32
        opened := true }

/-- `p->offsets[i++] = STORE32_LE(cur_len)` -/
def St.storeOffset (s : St) : Except Stop St := do
  let s ← s.write (offsetsOffset s.i) (leBytes 4 s.curLen)
  return { s with i := s.i + 1 }

/-- `maxlen`, rounded up to a multiple of 0x1000 -/
def roundMaxlen (n : BitVec w) : BitVec w :=
  if n &&& 0xfff ≠ 0 then n + (0x1000 - (n &&& 0xfff)) else n

/-- The memory behind `realloc` of a buffer of `old` bytes. -/
def reallocated (buf : Mem) (old new : Nat) (memory : Mem) : Mem := fun a =>
  if a < old ∧ a < new then buf a else memory a

/-- One option. -/
def St.step (s : St) : Opt w → Except Stop St
  | .version2 =>
    -- take care that nothing was written to buf so far
    if s.curLen ≠ sizeofHeader - 4 then .ok s
    else .ok { s with trxVersion := 2, curLen := s.curLen + 4 }
  | .fsmark content => { s with fsmark := s.curLen }.readFile w content
  | .append content => s.readFile w content
  | .file content => do (← s.storeOffset).readFile w content
  | .output opened => if opened then .ok s else .error .exit
  | .maxlen none _ => .error .exit
  | .maxlen (some n) memory =>
    let maxlen := (roundMaxlen n).toNat
    -- less than a page is refused
    if maxlen < 0x1000 then .error .exit
    else
      match memory with
      | none => .error .exit
      | some memory => .ok { s with buf := reallocated s.buf s.maxlen maxlen memory, maxlen }
  | .align none => .error .exit
  | .align (some n) =>
    let c := BitVec.ofNat w s.curLen &&& (n - 1)
    if c ≠ 0 then s.zeros (n - c).toNat else .ok s
  | .absolute none => .error .exit
  | .absolute (some n) =>
    -- an absolute offset in front of the end is ignored
    if n.toNat < s.curLen then .ok s else s.zeros (n.toNat - s.curLen)
  | .relative none => .error .exit
  | .relative (some n) =>
    if n.toInt < 0 then
      -- cut off more than there is: the image is empty
      if -n.toInt > s.curLen then .ok { s with curLen := 0 }
      else .ok { s with curLen := s.curLen - (-n.toInt).toNat }
    else s.zeros n.toNat
  | .magic none => .error .exit
  | .magic (some n) => s.write 0 (leBytes 4 (n.toNat % 2 ^ 32))
  | .other => .error .exit

/-- `p->offsets[3]` -/
def St.offset3 (s : St) : Nat := loadLE 4 fun k => s.buf (offsetsOffset 3 + k)

/-- `memcpy(binheader, buf + pos, sizeof(binheader))` -/
def St.binheader (s : St) (pos : Nat) : Except Stop (List UInt8) :=
  if pos + sizeofBinheader ≤ s.maxlen then .ok (bytesAt s.buf pos sizeofBinheader)
  else .error .fault

/-- `crc32buf((char *) &p->flag_version, len - offsetof(struct trx_header, flag_version))` -/
def St.crc32 (s : St) (len : Nat) : Except Stop UInt32 :=
  if flagVersionOffset ≤ len ∧ len ≤ s.maxlen then
    .ok (Crc.accumulate 0xffffffff (bytesAt s.buf flagVersionOffset (len - flagVersionOffset)))
  else .error .fault

/-- `(fsmark) ? fsmark : cur_len` -/
def St.len (s : St) : Nat := if s.fsmark ≠ 0 then s.fsmark else s.curLen

/-- The checksum, the length and the output. -/
def St.seal (s : St) (written : Bool) : Except Stop (List UInt8) := do
  -- for TRXv2 set bin-header Flags to 0xFF for CRC calculation like CFE does
  if s.trxVersion = 2 ∧ (s.curLen + 2 ^ 32 - s.offset3) % 2 ^ 32 < sizeofBinheader then throw .exit
  let binheader ← if s.trxVersion = 2 then s.binheader s.offset3 else pure []
  let s ← if s.trxVersion = 2 then s.write (s.offset3 + 22) (List.replicate 8 0xff) else pure s
  let crc32 ← s.crc32 s.len
  let s ← s.write crc32Offset (leBytes 4 crc32.toNat)
  let s ← s.write lenOffset (leBytes 4 s.len)
  -- restore TRXv2 bin-header
  let s ← if s.trxVersion = 2 then s.write s.offset3 binheader else pure s
  if s.curLen > s.maxlen then throw .fault
  if s.curLen = 0 ∨ ¬written then throw .exit
  return bytesAt s.buf 0 s.curLen

/-- What follows the options; `written` tells whether `fwrite` and `fflush` succeed. -/
def St.finish (s : St) (written : Bool) : Except Stop (List UInt8) := do
  let s ← s.write flagVersionOffset (leBytes 4 (s.trxVersion <<< 16))
  if ¬s.opened then throw .exit
  let s ← s.zeros (if s.curLen % 0x1000 ≠ 0 then 0x1000 - s.curLen % 0x1000 else 0)
  s.seal written

/-- The options from a state on. -/
def St.run (s : St) : List (Opt w) → Except Stop St
  | [] => .ok s
  | o :: opts => do (← s.step o).run opts

/-- The output of `trx` with buffer `heap`, if it exits with 0. -/
def main (heap : Mem) (opts : List (Opt w)) (written : Bool) : Except Stop (List UInt8) := do
  (← (St.init heap).run opts).finish written

end HandsomeMod.Native.Trx
