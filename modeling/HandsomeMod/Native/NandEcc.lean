import HandsomeMod.ForStd.Bits

/-!
# Check codes of NAND blocks

Embeds `nand_calculate_ecc` of `nand_ecc.c` and its table. A block is memory, of which 256 bytes are
read.
-/

namespace HandsomeMod.Native.NandEcc

open ForStd

/-- The column parity of each byte: bit 6 is the parity of all its bits, and bits 0 to 5 are a pair for
each bit of a bit's number. -/
def nandEccPrecalcTable : List UInt8 := [
  0x00, 0x55, 0x56, 0x03, 0x59, 0x0c, 0x0f, 0x5a, 0x5a, 0x0f, 0x0c, 0x59, 0x03, 0x56, 0x55, 0x00,
  0x65, 0x30, 0x33, 0x66, 0x3c, 0x69, 0x6a, 0x3f, 0x3f, 0x6a, 0x69, 0x3c, 0x66, 0x33, 0x30, 0x65,
  0x66, 0x33, 0x30, 0x65, 0x3f, 0x6a, 0x69, 0x3c, 0x3c, 0x69, 0x6a, 0x3f, 0x65, 0x30, 0x33, 0x66,
  0x03, 0x56, 0x55, 0x00, 0x5a, 0x0f, 0x0c, 0x59, 0x59, 0x0c, 0x0f, 0x5a, 0x00, 0x55, 0x56, 0x03,
  0x69, 0x3c, 0x3f, 0x6a, 0x30, 0x65, 0x66, 0x33, 0x33, 0x66, 0x65, 0x30, 0x6a, 0x3f, 0x3c, 0x69,
  0x0c, 0x59, 0x5a, 0x0f, 0x55, 0x00, 0x03, 0x56, 0x56, 0x03, 0x00, 0x55, 0x0f, 0x5a, 0x59, 0x0c,
  0x0f, 0x5a, 0x59, 0x0c, 0x56, 0x03, 0x00, 0x55, 0x55, 0x00, 0x03, 0x56, 0x0c, 0x59, 0x5a, 0x0f,
  0x6a, 0x3f, 0x3c, 0x69, 0x33, 0x66, 0x65, 0x30, 0x30, 0x65, 0x66, 0x33, 0x69, 0x3c, 0x3f, 0x6a,
  0x6a, 0x3f, 0x3c, 0x69, 0x33, 0x66, 0x65, 0x30, 0x30, 0x65, 0x66, 0x33, 0x69, 0x3c, 0x3f, 0x6a,
  0x0f, 0x5a, 0x59, 0x0c, 0x56, 0x03, 0x00, 0x55, 0x55, 0x00, 0x03, 0x56, 0x0c, 0x59, 0x5a, 0x0f,
  0x0c, 0x59, 0x5a, 0x0f, 0x55, 0x00, 0x03, 0x56, 0x56, 0x03, 0x00, 0x55, 0x0f, 0x5a, 0x59, 0x0c,
  0x69, 0x3c, 0x3f, 0x6a, 0x30, 0x65, 0x66, 0x33, 0x33, 0x66, 0x65, 0x30, 0x6a, 0x3f, 0x3c, 0x69,
  0x03, 0x56, 0x55, 0x00, 0x5a, 0x0f, 0x0c, 0x59, 0x59, 0x0c, 0x0f, 0x5a, 0x00, 0x55, 0x56, 0x03,
  0x66, 0x33, 0x30, 0x65, 0x3f, 0x6a, 0x69, 0x3c, 0x3c, 0x69, 0x6a, 0x3f, 0x65, 0x30, 0x33, 0x66,
  0x65, 0x30, 0x33, 0x66, 0x3c, 0x69, 0x6a, 0x3f, 0x3f, 0x6a, 0x69, 0x3c, 0x66, 0x33, 0x30, 0x65,
  0x00, 0x55, 0x56, 0x03, 0x59, 0x0c, 0x0f, 0x5a, 0x5a, 0x0f, 0x0c, 0x59, 0x03, 0x56, 0x55, 0x00]

/-- `reg1`, `reg2` and `reg3` -/
structure EccRegs where
  reg1 : UInt8
  reg2 : UInt8
  reg3 : UInt8

/-- A turn of the loop. -/
def eccTurn (dat : Mem) (r : EccRegs) (i : Nat) : EccRegs :=
  let idx := nandEccPrecalcTable.getD (dat i).toNat 0
  let r := { r with reg1 := r.reg1 ^^^ (idx &&& 0x3f) }
  -- all bits XOR = 1
  if idx &&& 0x40 ≠ 0 then
    { r with reg3 := r.reg3 ^^^ UInt8.ofNat i, reg2 := r.reg2 ^^^ ~~~ UInt8.ofNat i }
  else r

/-- The registers after so many bytes. -/
def eccRegs (dat : Mem) (n : Nat) : EccRegs :=
  (List.range n).foldl (eccTurn dat) { reg1 := 0, reg2 := 0, reg3 := 0 }

/-- `tmp1`, the upper halves of both line parities -/
def tmp1 (r : EccRegs) : UInt8 :=
  ((r.reg3 &&& 0x80) >>> 0) ||| ((r.reg2 &&& 0x80) >>> 1) |||
  ((r.reg3 &&& 0x40) >>> 1) ||| ((r.reg2 &&& 0x40) >>> 2) |||
  ((r.reg3 &&& 0x20) >>> 2) ||| ((r.reg2 &&& 0x20) >>> 3) |||
  ((r.reg3 &&& 0x10) >>> 3) ||| ((r.reg2 &&& 0x10) >>> 4)

/-- `tmp2`, the lower halves -/
def tmp2 (r : EccRegs) : UInt8 :=
  ((r.reg3 &&& 0x08) <<< 4) ||| ((r.reg2 &&& 0x08) <<< 3) |||
  ((r.reg3 &&& 0x04) <<< 3) ||| ((r.reg2 &&& 0x04) <<< 2) |||
  ((r.reg3 &&& 0x02) <<< 2) ||| ((r.reg2 &&& 0x02) <<< 1) |||
  ((r.reg3 &&& 0x01) <<< 1) ||| ((r.reg2 &&& 0x01) <<< 0)

/-- `ecc_code` -/
structure EccCode where
  code0 : UInt8
  code1 : UInt8
  code2 : UInt8
  deriving Repr, DecidableEq

/-- `nand_calculate_ecc`, with `CONFIG_MTD_NAND_ECC_SMC` or without -/
def nandCalculateEcc (smc : Bool) (dat : Mem) : EccCode :=
  let r := eccRegs dat 256
  { code0 := if smc then ~~~ tmp2 r else ~~~ tmp1 r
    code1 := if smc then ~~~ tmp1 r else ~~~ tmp2 r
    code2 := (~~~ r.reg1) <<< 2 ||| 0x03 }

end HandsomeMod.Native.NandEcc
