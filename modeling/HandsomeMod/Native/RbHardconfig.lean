import HandsomeMod.ForStd.Loop
import HandsomeMod.ForStd.Mem

/-!
# RouterBOOT `hard_config`

Embeds `routerboot_tag_find` and `routerboot_rle_decode` of `routerboot.c`, and the readers of
`rb_hardconfig.c`: `hc_attr_show` and `hc_wlan_data_unpack`. A `size_t` has `w` bits. No result stands
for an access outside of a buffer. LZO is a parameter.
-/

namespace HandsomeMod.Native.RbHardconfig

open ForStd

variable {w : Nat}

def enoent : Int := 2
def eio : Int := 5
def enomem : Int := 12
def einval : Int := 22
def efbig : Int := 27
def enospc : Int := 28
def enodata : Int := 61

/-! ### `routerboot_rle_decode` -/

/-- The arguments: `in` has `inlen` bytes, `out` has `*outlen`. Two buffers are not in the same
place. -/
structure RleArgs (w : Nat) where
  input : List UInt8
  outlen : BitVec w
  /-- neither `in` nor `out` is NULL -/
  present : Bool
  width : w = 32 ∨ w = 64
  input_lt : input.length < 2 ^ w
  apart : input.length + outlen.toNat ≤ 2 ^ w

/-- The variables: how far `in` got, and what was written. -/
structure RleState (w : Nat) where
  pos : Nat
  inlen : BitVec w
  out : List UInt8
  nbytes : BitVec 32

/-- What is returned, what is left in `*outlen`, and what was written to `out`. -/
structure RleRet (w : Nat) where
  ret : Int
  outlen : BitVec w
  out : List UInt8
  deriving DecidableEq, Repr

/-- `while (run-- > 0) *out++ = *in++` -/
def copyIn (input : List UInt8) (cap : Nat) : Nat → Nat → List UInt8 → Option (List UInt8)
  | 0, _, out => some out
  | run + 1, pos, out =>
    match input[pos]? with
    | none => none
    | some byte => if out.length < cap then copyIn input cap run (pos + 1) (out ++ [byte]) else none

/-- `while (run-- > 0) *out++ = byte` -/
def fillOut (cap : Nat) (byte : UInt8) : Nat → List UInt8 → Option (List UInt8)
  | 0, out => some out
  | run + 1, out => if out.length < cap then fillOut cap byte run (out ++ [byte]) else none

/-- The label `fail`. -/
def RleState.fail (s : RleState w) (nbytes : BitVec 32) (ret : Int) : RleRet w :=
  { ret := ret, outlen := nbytes.signExtend w, out := s.out }

variable (a : RleArgs w)

/-- A turn of the loop. -/
def rleTurn (s : RleState w) : Option (RleRet w) ⊕ RleState w :=
  if s.inlen < 2 then .inl (some (s.fail s.nbytes 0))
  else
    match a.input[s.pos]? with
    | none => .inl none
    | some head =>
      let run : BitVec 32 := head.toBitVec.setWidth 32
      let inlen := s.inlen - 1
      -- a literal: the count is negated
      if run &&& 0x80 ≠ 0 then
        let run := (~~~run &&& 0xff) + 1
        -- more bytes are announced than are left
        if run.signExtend w > inlen then .inl (some (s.fail s.nbytes (-enospc)))
        else
          let nbytes := s.nbytes + run
          if nbytes.signExtend w > a.outlen then .inl (some (s.fail nbytes (-enospc)))
          else
            match copyIn a.input a.outlen.toNat run.toNat (s.pos + 1) s.out with
            | none => .inl none
            | some out => .inr { pos := s.pos + 1 + run.toNat, inlen := inlen - run.signExtend w,
                                 out := out, nbytes := nbytes }
      else
        -- a run of one byte
        match a.input[s.pos + 1]? with
        | none => .inl none
        | some byte =>
          let nbytes := s.nbytes + run
          if nbytes.signExtend w > a.outlen then .inl (some (s.fail nbytes (-enospc)))
          else
            match fillOut a.outlen.toNat byte run.toNat s.out with
            | none => .inl none
            | some out => .inr { pos := s.pos + 2, inlen := inlen - 1, out := out, nbytes := nbytes }

/-- `inlen` -/
def RleArgs.inlen : BitVec w := BitVec.ofNat w a.input.length

/-- Where the loop begins. -/
def rleStart : RleState w := { pos := 0, inlen := a.inlen, out := [], nbytes := 0 }

/-- `routerboot_rle_decode`, if it ends within `fuel` turns -/
def routerbootRleDecode (fuel : Nat) : Option (Option (RleRet w)) :=
  if a.present = false ∨ a.inlen < 2 then
    some (some { ret := -einval, outlen := a.outlen, out := [] })
  else Loop.run (rleTurn a) fuel (rleStart a)

/-! ### `routerboot_tag_find` -/

/-- A word of a buffer. -/
def loadWord (e : Endian) (buf : List UInt8) (pos : Nat) : Option Nat :=
  if pos + 4 ≤ buf.length then some (e.load 4 fun i => buf.getD (pos + i) 0) else none

/-- `node & 0xFFFF` -/
def nodeId (node : Nat) : UInt16 := UInt16.ofNat node

/-- `node >> 16` -/
def nodeLen (node : Nat) : UInt16 := UInt16.ofNat (node / 2 ^ 16)

/-- `len = ALIGN(len, sizeof(*datum))`, which is a `u16` -/
def alignLen (len : UInt16) : Nat := (len.toNat + 3) / 4 * 4 % 2 ^ 16

/-- A turn of the loop, at `datum`. The buffer is said to have `buflen` bytes. -/
def tagTurn (e : Endian) (buf : List UInt8) (buflen : Nat) (tagId : UInt16) (datum : Nat) :
    Option (Except Int (UInt16 × UInt16)) ⊕ Nat :=
  if datum < buflen then
    match loadWord e buf datum with
    | none => .inl none
    | some node =>
      let datum := datum + 4
      if node = 0 then .inl (some (.error (-enoent)))
      else if tagId = nodeId node then
        if datum ≥ buflen then .inl (some (.error (-enoent)))
        else .inl (some (.ok (UInt16.ofNat datum, nodeLen node)))
      else .inr (datum + alignLen (nodeLen node))
  else .inl (some (.error (-enoent)))

/-- `routerboot_tag_find` on a buffer that is not NULL, if it ends within `fuel` turns: `pld_ofs` and
`pld_len` -/
def routerbootTagFind (e : Endian) (buf : List UInt8) (buflen : Nat) (tagId : UInt16) (fuel : Nat) :
    Option (Option (Except Int (UInt16 × UInt16))) :=
  if tagId = 0 then some (some (.error (-einval)))
  else Loop.run (tagTurn e buf buflen tagId) fuel 0

/-- The tag of the end of the list is refused. -/
theorem routerbootTagFind_zero (e : Endian) (buf : List UInt8) (buflen fuel : Nat) :
    routerbootTagFind e buf buflen 0 fuel = some (some (.error (-einval))) := rfl

/-- The search for a tag is the loop over the nodes. -/
theorem routerbootTagFind_of_ne {tagId : UInt16} (hid : tagId ≠ 0) (e : Endian) (buf : List UInt8)
    (buflen fuel : Nat) :
    routerbootTagFind e buf buflen tagId fuel = Loop.run (tagTurn e buf buflen tagId) fuel 0 :=
  if_neg hid

/-! ### `hc_attr_show` -/

/-- The functions that print a tag. -/
inductive Tshow where
  | string
  | u32s
  | mac
  | hwoptions

/-- What is printed. -/
inductive Shown where
  | text (s : List UInt8)
  /-- a line for each word -/
  | words (data : List Nat)
  | mac (pld : List UInt8)
  /-- the word and the bits of it -/
  | hwoptions (data : Nat)

/-- `routerboot_tag_show_string`: `%s` reads up to a NUL, whatever is printed of it -/
def tagShowString (buf : List UInt8) (ofs : Nat) (len : UInt16) : Option Shown :=
  if 0 ∈ buf.drop ofs then
    some (.text (((buf.drop ofs).takeWhile (· ≠ 0) ++ [10]).take len.toNat))
  else none

/-- `routerboot_tag_show_u32s` -/
def tagShowU32s (e : Endian) (buf : List UInt8) (ofs : Nat) (len : UInt16) :
    Option (Except Int Shown) :=
  if len.toNat % 4 ≠ 0 then some (.error (-einval))
  else
    ((List.range (len.toNat / 4)).mapM fun i => loadWord e buf (ofs + 4 * i)).map fun data =>
      .ok (.words data)

/-- `hc_tag_show_mac`: `%pM` reads six bytes -/
def tagShowMac (buf : List UInt8) (ofs : Nat) (len : UInt16) : Option (Except Int Shown) :=
  if len ≠ 8 then some (.error (-einval))
  else if ofs + 6 ≤ buf.length then some (.ok (.mac ((buf.drop ofs).take 6)))
  else none

/-- `hc_tag_show_hwoptions` -/
def tagShowHwoptions (e : Endian) (buf : List UInt8) (ofs : Nat) (len : UInt16) :
    Option (Except Int Shown) :=
  if len ≠ 4 then some (.error (-einval))
  else (loadWord e buf ofs).map fun data => .ok (.hwoptions data)

/-- `hc_attr_show` on `hc_buf`, for an attribute with that `pld_ofs` and `pld_len` -/
def hcAttrShow (e : Endian) (hcBuf : List UInt8) (tshow : Tshow) (pldOfs pldLen : UInt16) :
    Option (Except Int Shown) :=
  if pldLen = 0 then some (.error (-enoent))
  else
    match tshow with
    | .string => (tagShowString hcBuf pldOfs.toNat pldLen).map .ok
    | .u32s => tagShowU32s e hcBuf pldOfs.toNat pldLen
    | .mac => tagShowMac hcBuf pldOfs.toNat pldLen
    | .hwoptions => tagShowHwoptions e hcBuf pldOfs.toNat pldLen

/-! ### `hc_wlan_data_unpack` -/

/-- `RB_ART_SIZE`, the size of `outbuf` -/
def rbArtSize : Nat := 0x10000

/-- `RB_MAGIC_LZOR` -/
def rbMagicLzor : Nat := 0x4c ||| 0x5a <<< 8 ||| 0x4f <<< 16 ||| 0x52 <<< 24

/-- `RB_MAGIC_ERD` -/
def rbMagicErd : Nat := 0x45 <<< 16 ||| 0x52 <<< 8 ||| 0x44

/-- `RB_WLAN_ERD_ID_SOLO` -/
def rbWlanErdIdSolo : UInt16 := 0x0001

/-- `LZO_E_INPUT_NOT_CONSUMED` -/
def lzoInputNotConsumed : Int := -8

/-- The machine, and what the driver finds around it. -/
structure HcEnv (w : Nat) where
  endian : Endian
  /-- `hc_lzor_prefix` -/
  lzorPrefix : List UInt8
  /-- `lzo1x_decompress_safe` for an input and the size of the output: what it returns and what it
  writes -/
  lzo : List UInt8 → Nat → Int × List UInt8
  kmalloc : Bool
  width : w = 32 ∨ w = 64
  length_lzorPrefix : lzorPrefix.length = 1380
  length_lzo_le : ∀ input room, (lzo input room).2.length ≤ room

variable (env : HcEnv w)

/-- The data of a `u16` length fits a `size_t`. -/
private theorem length_take_lt (env : HcEnv w) (input : List UInt8) (len : UInt16) :
    (input.take len.toNat).length < 2 ^ w := by
  have hlen := len.toNat_lt
  have hw := env.width
  have hpow : 2 ^ 32 ≤ 2 ^ w := Nat.pow_le_pow_right (by omega) (by omega)
  rw [List.length_take]
  omega

/-- Data and output buffer fit the address space together. -/
private theorem length_take_apart (env : HcEnv w) (input : List UInt8) (len : UInt16) :
    (input.take len.toNat).length + (BitVec.ofNat w rbArtSize).toNat ≤ 2 ^ w := by
  have hlen := len.toNat_lt
  have hw := env.width
  have hpow : 2 ^ 32 ≤ 2 ^ w := Nat.pow_le_pow_right (by omega) (by omega)
  have hsize : (BitVec.ofNat w rbArtSize).toNat ≤ 0x10000 := Nat.mod_le _ _
  rw [List.length_take]
  omega

/-- The arguments of a call that decodes the first `len` bytes into `outbuf`. -/
def HcEnv.rleArgs (input : List UInt8) (len : UInt16) : RleArgs w where
  input := input.take len.toNat
  outlen := BitVec.ofNat w rbArtSize
  present := true
  width := env.width
  input_lt := length_take_lt env input len
  apart := length_take_apart env input len

/-- What is in `outbuf` behind `routerboot_rle_decode`. -/
def HcEnv.rleDecode (input : List UInt8) (len : UInt16) : Option (Except Int (List UInt8)) :=
  let a := env.rleArgs input len
  (routerbootRleDecode a (a.input.length + 1)).join.map fun r =>
    if r.ret = 0 then .ok r.out else .error r.ret

/-- What is in `outbuf` behind `lzo1x_decompress_safe`. -/
def HcEnv.lzoDecode (input : List UInt8) : Except Int (List UInt8) :=
  let r := env.lzo input rbArtSize
  if r.1 = 0 then .ok r.2 else .error r.1

/-- `routerboot_tag_find`; the loop ends within the bytes of the buffer -/
def HcEnv.tagFind (buf : List UInt8) (buflen : Nat) (tagId : UInt16) :
    Option (Except Int (UInt16 × UInt16)) :=
  (routerbootTagFind env.endian buf buflen tagId (buf.length + 1)).join

/-- The payload that a lookup reported, if it is in the buffer. -/
def payload (buf : List UInt8) (ofs len : UInt16) : Option (List UInt8) :=
  if ofs.toNat + len.toNat ≤ buf.length then some ((buf.drop ofs.toNat).take len.toNat) else none

/-- The end of both ways to unpack: a tag is looked up, and its payload is decoded. -/
def HcEnv.unpackTag (decode : List UInt8 → UInt16 → Option (Except Int (List UInt8))) (tagId : UInt16)
    (buf : List UInt8) (buflen : Nat) : Option (Except Int (List UInt8)) :=
  match env.tagFind buf buflen tagId with
  | none => none
  | some (.error ret) => some (.error ret)
  | some (.ok (ofs, len)) =>
    if len.toNat > buflen then some (.error (-einval))
    else (payload buf ofs len).bind fun input => decode input len

/-- `hc_wlan_data_unpack_erd`, with what there is of `hc_buf` from `inbuf` on -/
def hcWlanDataUnpackErd (tagId : UInt16) (inbuf : List UInt8) (inlen : BitVec w) :
    Option (Except Int (List UInt8)) :=
  env.unpackTag (fun input _ => some (env.lzoDecode input)) tagId (inbuf.take inlen.toNat) inlen.toNat

/-- A turn of the loop that looks for `RB_MAGIC_ERD`, at `needle`: what is behind the magic. -/
def needleTurn (e : Endian) (temp : List UInt8) (needle : Nat) :
    Option (Except Int (List UInt8)) ⊕ Nat :=
  match loadWord e temp needle with
  | none => .inl none
  | some word =>
    if word = rbMagicErd then .inl (some (.ok (temp.drop (needle + 4))))
    else if needle + 4 ≥ temp.length then .inl (some (.error (-enodata)))
    else .inr (needle + 4)

/-- The loop that looks for `RB_MAGIC_ERD`, which ends within the bytes of the blob. -/
def HcEnv.findNeedle (temp : List UInt8) : Option (Except Int (List UInt8)) :=
  (Loop.run (needleTurn env.endian temp) (temp.length + 1) 0).join

/-- `hc_wlan_data_unpack_lzor` behind the decompression into `tempbuf` -/
def HcEnv.unpackTemp (tagId : UInt16) (temp : List UInt8) : Option (Except Int (List UInt8)) :=
  match env.findNeedle temp with
  | none => none
  | some (.error ret) => some (.error ret)
  | some (.ok needle) => env.unpackTag env.rleDecode tagId needle needle.length

/-- `hc_wlan_data_unpack_lzor`, with what there is of `hc_buf` from `inbuf` on -/
def hcWlanDataUnpackLzor (tagId : UInt16) (inbuf : List UInt8) (inlen : BitVec w) :
    Option (Except Int (List UInt8)) :=
  let lzoLen := inlen + BitVec.ofNat w env.lzorPrefix.length
  if lzoLen > BitVec.ofNat w rbArtSize then some (.error (-efbig))
  else if env.kmalloc = false then some (.error (-enomem))
  -- the two calls of `memcpy`
  else if inbuf.length < inlen.toNat ∨ rbArtSize < env.lzorPrefix.length + inlen.toNat then none
  else
    let r := env.lzo (env.lzorPrefix ++ inbuf.take inlen.toNat) rbArtSize
    if r.1 ≠ 0 ∧ r.1 ≠ lzoInputNotConsumed then some (.error r.1)
    else env.unpackTemp tagId r.2

/-- `hc_wlan_data_unpack` on `hc_buf` -/
def hcWlanDataUnpack (tagId : UInt16) (hcBuf : List UInt8) (tofs tlen : UInt16) :
    Option (Except Int (List UInt8)) :=
  if tofs.toNat + tlen.toNat > hcBuf.length then some (.error (-eio))
  else
    match loadWord env.endian hcBuf tofs.toNat with
    | none => none
    | some magic =>
      let lbuf := hcBuf.drop tofs.toNat
      let inlen := BitVec.ofNat w tlen.toNat - 4
      if magic = rbMagicLzor then hcWlanDataUnpackLzor env tagId (lbuf.drop 4) inlen
      else if magic = rbMagicErd then hcWlanDataUnpackErd env tagId (lbuf.drop 4) inlen
      else if tagId = rbWlanErdIdSolo then env.rleDecode lbuf tlen
      else some (.error (-enodata))

/-! ### The readers -/

/-- Who reads a payload: an attribute, or the one with the data for an ID. -/
inductive Reader where
  | attr (tshow : Tshow)
  | wlan (erdTagId : UInt16)

/-- What a reader does with `hc_buf`, for a payload that `routerboot_tag_find` found behind the magic
of the partition. -/
def Reader.run (hcBuf : List UInt8) (ofs len : UInt16) : Reader → Option Unit
  | attr tshow => (hcAttrShow env.endian hcBuf tshow (ofs + 4) len).map fun _ => ()
  | wlan erdTagId =>
    -- an attribute without a payload is not read
    if len = 0 then some ()
    else (hcWlanDataUnpack env erdTagId hcBuf (ofs + 4) len).map fun _ => ()

end HandsomeMod.Native.RbHardconfig
