import HandsomeMod.ForStd.CText
import HandsomeMod.ForStd.Crc
import HandsomeMod.ForStd.Mealy
import HandsomeMod.ForStd.Mem

/-!
# Encrypted firmware of Buffalo devices

Embeds the cipher, the check sum and the two directions of `buffalo-lib.c`: `bcrypt_buf`,
`buffalo_csum`, `encrypt_buf` and `decrypt_buf`, and the arguments that `encrypt_file` of
`buffalo-enc.c` prepares. A pointer is an offset into a buffer.
-/

namespace HandsomeMod.Native.Buffalo

open ForStd

/-! ### The cipher -/

/-- `struct bcrypt_ctx`; the state has `stateLen` bytes. -/
structure BcryptCtx where
  i : UInt8
  j : UInt8
  state : Nat → UInt8

/-- A key, with its length checked by `check_params`. -/
structure Key where
  bytes : List UInt8
  length_le : bytes.length ≤ 254
  noNul : 0 ∉ bytes

/-- The variables of the second loop of `bcrypt_init`. -/
structure KeyState where
  j : Nat
  k : Nat
  state : Nat → UInt8

/-- A turn of the second loop of `bcrypt_init`. -/
def keyTurn (key : List UInt8) (stateLen : Nat) (s : KeyState) (i : Nat) : KeyState :=
  let t := s.state i
  let k := (s.k + (key.getD s.j 0).toNat + t.toNat) % stateLen
  let state := Function.update s.state i (s.state k)
  { j := (s.j + 1) % key.length, k := k, state := Function.update state k t }

/-- `bcrypt_init`, where `malloc` succeeds -/
def bcryptInit (key : List UInt8) (stateLen : Nat) : BcryptCtx :=
  let start : KeyState := { j := 0, k := 0, state := fun i => UInt8.ofNat i }
  { i := 0, j := 0, state := ((List.range stateLen).foldl (keyTurn key stateLen) start).state }

/-- A turn of the loop of `bcrypt_process`: the byte that is written for one that is read. `i` and `j`
are bytes. -/
def bcryptTurn (stateLen : Nat) (ctx : BcryptCtx) (src : UInt8) : BcryptCtx × UInt8 :=
  let i := UInt8.ofNat ((ctx.i.toNat + 1) % stateLen)
  let j := UInt8.ofNat ((ctx.j.toNat + (ctx.state i.toNat).toNat) % stateLen)
  let t := ctx.state j.toNat
  let state := Function.update ctx.state j.toNat (ctx.state i.toNat)
  let state := Function.update state i.toNat t
  let key := state (((state i.toNat).toNat + (state j.toNat).toNat) % stateLen)
  ({ i := i, j := j, state := state }, src ^^^ key)

/-- `bcrypt_process`, with `src` and `dst` in the same memory -/
def bcryptProcess (stateLen : Nat) : Nat → BcryptCtx → Mem → Nat → Nat → Mem
  | 0, _, m, _, _ => m
  | len + 1, ctx, m, src, dst =>
    let r := bcryptTurn stateLen ctx (m src)
    bcryptProcess stateLen len r.1 (Function.update m dst r.2) (src + 1) (dst + 1)

/-- The length of the state. -/
def stateLen (len : Nat) (longstate : Bool) : Nat := if longstate then len else 256

/-- `bcrypt_buf`; none if there is no memory -/
def bcryptBuf (malloc : Nat → Bool) (seed : UInt8) (key : Key) (m : Mem) (src dst len : Nat)
    (longstate : Bool) : Option Mem :=
  if malloc (stateLen len longstate) then
    some (bcryptProcess (stateLen len longstate) len
      (bcryptInit (seed :: key.bytes) (stateLen len longstate)) m src dst)
  else none

/-! ### The check sum -/

/-- One byte, which is a `signed char`. -/
def csumByte (csum : UInt32) (p : UInt8) : UInt32 :=
  Crc.shift^[8] (csum ^^^ UInt32.ofBitVec (p.toBitVec.signExtend 32))

/-- `buffalo_csum` -/
def buffaloCsum (csum : UInt32) (buf : List UInt8) : UInt32 := buf.foldl csumByte csum

/-! ### Both directions -/

/-- `struct enc_param`; an array is given by the bytes from its start on. -/
structure EncParam where
  key : Key
  magic : Mem
  product : Mem
  version : Mem
  seed : UInt8
  longstate : Bool
  datalen : UInt32
  csum : UInt32

/-- `ENC_MAGIC_LEN` -/
def encMagicLen : Nat := 6

/-- `ENC_PRODUCT_LEN` -/
def encProductLen : Nat := 32

/-- `ENC_VERSION_LEN` -/
def encVersionLen : Nat := 8

/-- The string in an array of so many bytes. -/
def cstring (m : Mem) (size : Nat) : List UInt8 := (bytesAt m 0 size).takeWhile (· ≠ 0)

/-- `put_be32` -/
def putBe32 (m : Mem) (p : Nat) (val : Nat) : Mem := writeBytes m p (bytesAt (storeBE 4 val) 0 4)

/-- `get_be32` -/
def getBe32 (m : Mem) (p : Nat) : Nat := loadBE 4 fun i => m (p + i)

/-- `check_magic` -/
def checkMagic (m : Mem) (p : Nat) : Bool :=
  bytesAt m p encMagicLen == ascii "start" ++ [0] || bytesAt m p encMagicLen == ascii "asar1" ++ [0]

variable (malloc : Nat → Bool)

/-- A string with its NUL is put behind its length, and is encrypted where it is. -/
def putField (seed : UInt8) (ep : EncParam) (field : Mem) (size : Nat) (m : Mem) (p : Nat) :
    Option Mem :=
  let len := (cstring field size).length + 1
  let m := putBe32 m p len
  let m := writeBytes m (p + 4) (bytesAt field 0 len)
  bcryptBuf malloc seed ep.key m (p + 4) (p + 4) len ep.longstate

/-- `encrypt_buf`; none for `-1` -/
def encryptBuf (ep : EncParam) (m : Mem) (hdr data : Nat) : Option Mem := do
  let p := hdr
  let len := (cstring ep.magic encMagicLen).length + 1
  -- setup magic
  let m := writeBytes m p (bytesAt ep.magic 0 len)
  let p := p + len
  -- setup seed
  let m := writeBytes m p [ep.seed]
  let p := p + 1
  -- put product len, copy and crypt product name
  let m ← putField malloc ep.seed ep ep.product encProductLen m p
  let s := m (p + 4)
  let p := p + 4 + ((cstring ep.product encProductLen).length + 1)
  -- put version length, copy and crypt version
  let m ← putField malloc s ep ep.version encVersionLen m p
  let s := m (p + 4)
  let p := p + 4 + ((cstring ep.version encVersionLen).length + 1)
  -- put data length
  let m := putBe32 m p ep.datalen.toNat
  -- encrypt data
  let m ← bcryptBuf malloc s ep.key m data data ep.datalen.toNat ep.longstate
  -- put checksum
  return putBe32 m (data + ep.datalen.toNat) ep.csum.toNat

/-- The variables `p` and `remain`. -/
structure Cursor where
  p : Nat
  remain : Nat

/-- `CHECKLEN` and `INCP`, between which the bytes at `p` are looked at -/
def Cursor.skip (c : Cursor) (len : Nat) : Option Cursor :=
  if c.remain < len then none else some { p := c.p + len, remain := c.remain - len }

/-- `memcpy` of the first `len` bytes of a field -/
def copyField (field : Mem) (m : Mem) (p len : Nat) : Mem := writeBytes field 0 (bytesAt m p len)

/-- A field and its length are read. -/
def getField (field : Mem) (size : Nat) (m : Mem) (c : Cursor) : Option (Mem × Nat × Cursor) := do
  let c' ← c.skip 4
  let len := getBe32 m c.p
  if len > size then none
  else
    let c'' ← c'.skip len
    return (copyField field m c'.p len, len, c'')

/-- `decrypt_buf` on the `datalen` bytes at `data`: the parameters and the memory, or none for `-1` -/
def decryptBuf (ep : EncParam) (m : Mem) (data datalen : Nat) : Option (EncParam × Mem) := do
  let c : Cursor := { p := data, remain := datalen }
  let c1 ← c.skip encMagicLen
  if checkMagic m c.p = false then none
  else
    let ep := { ep with magic := copyField ep.magic m c.p encMagicLen }
    let c2 ← c1.skip 1
    let ep := { ep with seed := m c1.p }
    let (product, prodLen, c3) ← getField ep.product encProductLen m c2
    let ep := { ep with product := product }
    let (version, verLen, c4) ← getField ep.version encVersionLen m c3
    let ep := { ep with version := version }
    let c5 ← c4.skip 4
    let ep := { ep with datalen := UInt32.ofNat (getBe32 m c4.p) }
    let c6 ← c5.skip ep.datalen.toNat
    -- the data are keyed by the first byte of the version, which is still encrypted here
    let m ← bcryptBuf malloc (ep.version 0) ep.key m c5.p data ep.datalen.toNat ep.longstate
    let _ ← c6.skip 4
    let ep := { ep with csum := UInt32.ofNat (getBe32 m c6.p) }
    if buffaloCsum ep.datalen (bytesAt m data ep.datalen.toNat) ≠ ep.csum then none
    else
      -- the names are decrypted last, each keyed by what stands in front of it
      let version ← bcryptBuf malloc (ep.product 0) ep.key ep.version 0 0 verLen ep.longstate
      let product ← bcryptBuf malloc ep.seed ep.key ep.product 0 0 prodLen ep.longstate
      return ({ ep with version := version, product := product }, m)

/-! ### `encrypt_file` -/

/-- `enc_compute_header_len` -/
def encComputeHeaderLen (product version : List UInt8) : Nat :=
  encMagicLen + 1 + product.length + 1 + version.length + 1 + 3 * 4

/-- `enc_compute_buf_len` -/
def encComputeBufLen (product version : List UInt8) (datalen : Nat) : Nat :=
  let ret := encComputeHeaderLen product version + (datalen + 4)
  ret + (4 - ret % 4)

/-- `strcpy` into an array that was cleared. -/
def strcpyField (s : List UInt8) : Mem := fun i => s.getD i 0

/-- The parameters that `encrypt_file` makes. -/
def encryptParam (key : Key) (longstate : Bool) (magic : List UInt8) (seed : UInt8)
    (product version data : List UInt8) : EncParam where
  key := key
  magic := strcpyField magic
  product := strcpyField product
  version := strcpyField version
  seed := seed
  longstate := longstate
  datalen := UInt32.ofNat data.length
  csum := buffaloCsum (UInt32.ofNat data.length) data

end HandsomeMod.Native.Buffalo
