import HandsomeMod.ForStd.Mealy

/-!
# The PC1 cipher

Embeds `pc1crypt.c`: the 16-bit machine behind the key stream, and the two functions that pass a
buffer through it. Arrays are functions of their index, and a `short` is given by its bits.
-/

namespace HandsomeMod.Native.Pc1

open ForStd

/-- `struct pc1_ctx`, without `c`, which nothing uses -/
structure Ctx where
  ax : UInt16
  bx : UInt16
  cx : UInt16
  dx : UInt16
  si : UInt16
  tmp : UInt16
  x1a2 : UInt16
  x1a0 : Nat → UInt16
  res : UInt16
  i : UInt16
  inter : UInt16
  cfc : UInt16
  cfd : UInt16
  compte : UInt16
  cle : Nat → UInt8

/-- The first half of `pc1_code`: the registers are loaded, exchanged and multiplied. -/
def Ctx.load (pc1 : Ctx) : Ctx :=
  let pc1 := { pc1 with
    dx := pc1.x1a2 + pc1.i, ax := pc1.x1a0 pc1.i.toNat, cx := 0x015a, bx := 0x4e35 }
  let pc1 := { pc1 with tmp := pc1.ax }
  let pc1 := { pc1 with ax := pc1.si }
  let pc1 := { pc1 with si := pc1.tmp }
  let pc1 := { pc1 with tmp := pc1.ax }
  let pc1 := { pc1 with ax := pc1.dx }
  let pc1 := { pc1 with dx := pc1.tmp }
  if pc1.ax ≠ 0 then { pc1 with ax := pc1.ax * pc1.bx } else pc1

def code (pc1 : Ctx) : Ctx :=
  let pc1 := pc1.load
  let pc1 := { pc1 with tmp := pc1.ax }
  let pc1 := { pc1 with ax := pc1.cx }
  let pc1 := { pc1 with cx := pc1.tmp }
  let pc1 :=
    if pc1.ax ≠ 0 then
      let pc1 := { pc1 with ax := pc1.ax * pc1.si }
      { pc1 with cx := pc1.ax + pc1.cx }
    else pc1
  let pc1 := { pc1 with tmp := pc1.ax }
  let pc1 := { pc1 with ax := pc1.si }
  let pc1 := { pc1 with si := pc1.tmp }
  let pc1 := { pc1 with ax := pc1.ax * pc1.bx }
  let pc1 := { pc1 with dx := pc1.cx + pc1.dx }
  let pc1 := { pc1 with ax := pc1.ax + 1 }
  let pc1 := { pc1 with x1a2 := pc1.dx }
  let pc1 := { pc1 with x1a0 := Function.update pc1.x1a0 pc1.i.toNat pc1.ax }
  { pc1 with res := pc1.ax ^^^ pc1.dx, i := pc1.i + 1 }

/-- `(pc1->cle[j] * 256) + pc1->cle[j + 1]` -/
def Ctx.keyWord (pc1 : Ctx) (j : Nat) : UInt16 :=
  (pc1.cle j).toUInt16 * 256 + (pc1.cle (j + 1)).toUInt16

/-- The lines of `pc1_assemble` for `x1a0[k]`, `k` from 1. -/
def assembleStep (pc1 : Ctx) (k : Nat) : Ctx :=
  let pc1 := { pc1 with
    x1a0 := Function.update pc1.x1a0 k (pc1.x1a0 (k - 1) ^^^ pc1.keyWord (2 * k)) }
  let pc1 := code pc1
  { pc1 with inter := pc1.inter ^^^ pc1.res }

def assemble (pc1 : Ctx) : Ctx :=
  let pc1 := { pc1 with x1a0 := Function.update pc1.x1a0 0 (pc1.keyWord 0) }
  let pc1 := code pc1
  let pc1 := { pc1 with inter := pc1.res }
  let pc1 := [1, 2, 3, 4, 5, 6, 7].foldl assembleStep pc1
  { pc1 with i := 0 }

/-- What `pc1_decrypt` and `pc1_encrypt` have in common: the next word of the key stream. -/
def Ctx.next (pc1 : Ctx) : Ctx :=
  let pc1 := assemble pc1
  { pc1 with cfc := pc1.inter >>> 8, cfd := pc1.inter &&& 255 }

/-- One turn of the loop that mixes the plaintext byte with the key. -/
def Ctx.mixTurn (c : UInt16) (pc1 : Ctx) (compte : Nat) : Ctx :=
  { pc1 with
    cle := Function.update pc1.cle compte (pc1.cle compte ^^^ c.toUInt8)
    compte := UInt16.ofNat (compte + 1) }

def Ctx.mix (pc1 : Ctx) (c : UInt16) : Ctx := (List.range 16).foldl (Ctx.mixTurn c) pc1

def decrypt (pc1 : Ctx) (c : UInt16) : Ctx × UInt8 :=
  let pc1 := pc1.next
  let c := c ^^^ (pc1.cfc ^^^ pc1.cfd)
  (pc1.mix c, c.toUInt8)

def encrypt (pc1 : Ctx) (c : UInt16) : Ctx × UInt8 :=
  let pc1 := pc1.next
  let mixed := pc1.mix c
  (mixed, (c ^^^ (pc1.cfc ^^^ pc1.cfd)).toUInt8)

/-- `pc1_init` -/
def init : Ctx where
  ax := 0
  bx := 0
  cx := 0
  dx := 0
  si := 0
  tmp := 0
  x1a2 := 0
  x1a0 _ := 0
  res := 0
  i := 0
  inter := 0
  cfc := 0
  cfd := 0
  compte := 0
  -- "Remsaalps!123456"
  cle j := [0x52, 0x65, 0x6d, 0x73, 0x61, 0x61, 0x6c, 0x70, 0x73, 0x21, 0x31, 0x32, 0x33, 0x34,
    0x35, 0x36].getD j 0

def decryptBuf : Ctx → List UInt8 → Ctx × List UInt8 :=
  Mealy.run fun pc1 c => decrypt pc1 c.toUInt16

def encryptBuf : Ctx → List UInt8 → Ctx × List UInt8 :=
  Mealy.run fun pc1 c => encrypt pc1 c.toUInt16

/-- Calls of `pc1_decrypt_buf` for one buffer after the other. -/
def decryptBufs : Ctx → List (List UInt8) → Ctx × List (List UInt8) :=
  Mealy.runChunks fun pc1 c => decrypt pc1 c.toUInt16

/-- Calls of `pc1_encrypt_buf` for one buffer after the other. -/
def encryptBufs : Ctx → List (List UInt8) → Ctx × List (List UInt8) :=
  Mealy.runChunks fun pc1 c => encrypt pc1 c.toUInt16

end HandsomeMod.Native.Pc1
