import HandsomeMod.ForStd.Mem

/-!
# Receive rings of the RTL838x Ethernet driver

`rtl838x_setup_ring_buffer`, `rtl838x_hw_receive` and `rtl838x_rb_cleanup` of `rtl838x_eth.c`. The
counters of the ring fill level, which the switch keeps for itself, are left out.
-/

namespace HandsomeMod.Native.Rtl838x.Rx

open HandsomeMod.ForStd

abbrev U16 := BitVec 16
abbrev U32 := BitVec 32

/-- `RING_BUFFER` -/
def ringBuffer : Nat := 1600

/-- `MAX_RXLEN` -/
def maxRxlen : Nat := 100

/-- `MAX_RXRINGS` -/
def maxRxrings : Nat := 32

/-- `WRAP` -/
def wrap : U32 := 2#32

/-- `NET_IP_ALIGN` -/
def netIpAlign : Nat := 2

/-- `KSEG1ADDR` -/
def kseg1addr (a : U32) : U32 := (a &&& 0x1fffffff#32) ||| 0xa0000000#32

/-- `family_id` -/
inductive Family where
  | rtl8380
  | rtl8390
  | rtl9300
  | rtl9310
  deriving DecidableEq

/-- `struct p_hdr` -/
structure PHdr where
  buf : U32
  reserved : U16
  size : U16
  offset : U16
  len : U16
  cpuTag : Fin 10 → U16

/-- What `rtl838x_probe` sets up: the rings, and the coherent memory behind them. `rxHeader` and
    `rxSpace` are the addresses of `rx_header[0][0]` and of the buffers. -/
structure Cfg where
  family : Family
  rxrings : Nat
  rxringlen : Nat
  rxHeader : U32
  rxSpace : U32
  rxrings_le : rxrings ≤ maxRxrings
  rxringlen_pos : 0 < rxringlen
  rxringlen_le : rxringlen ≤ maxRxlen
  aligned : rxHeader.toNat % 4 = 0
  fits : rxSpace.toNat % 2 ^ 29 + rxrings * rxringlen * ringBuffer ≤ 2 ^ 29

/-- `&ring->rx_header[r][j]`; `struct p_hdr` has 32 bytes. -/
def Cfg.hdrAddr (g : Cfg) (r j : Nat) : U32 :=
  g.rxHeader + BitVec.ofNat 32 ((r * maxRxlen + j) * 32)

/-- The address of the buffer of a slot. -/
def Cfg.bufAddr (g : Cfg) (r j : Nat) : U32 :=
  kseg1addr (g.rxSpace + BitVec.ofNat 32 (r * g.rxringlen * ringBuffer + j * ringBuffer))

/-- `struct ring_b` with the headers and buffers, and `dev->stats`. -/
structure Priv where
  rxR : Nat → Nat → U32
  rxHeader : Nat → Nat → PHdr
  cRx : Nat → Nat
  mem : Mem
  rxPackets : Nat
  rxBytes : Nat
  rxDropped : Nat

/-- `memset(h, 0, sizeof(struct p_hdr))` with `h->buf` and `h->size` set after it -/
def resetHeader (buf : U32) : PHdr where
  buf := buf
  reserved := 0#16
  size := BitVec.ofNat 16 ringBuffer
  offset := 0#16
  len := 0#16
  cpuTag _ := 0#16

/-- `rtl838x_setup_ring_buffer`, for the receive rings -/
def setupRingBuffer (g : Cfg) (p : Priv) : Priv :=
  { p with
    rxHeader := fun r j => resetHeader (g.bufAddr r j)
    -- All rings owned by switch, last one wraps
    rxR := fun r j =>
      kseg1addr (g.hdrAddr r j) ||| 1#32 ||| (if j = g.rxringlen - 1 then wrap else 0#32)
    cRx := fun _ => 0 }

/-- A change of one slot. -/
def update2 {α : Type} (f : Nat → Nat → α) (r j : Nat) (a : α) : Nat → Nat → α :=
  Function.update f r (Function.update (f r) j a)

/-- The slot is owned by the switch. -/
def Priv.Owned (p : Priv) (r j : Nat) : Prop := p.rxR r j &&& 1#32 ≠ 0#32

instance (p : Priv) (r j : Nat) : Decidable (p.Owned r j) := by
  unfold Priv.Owned
  infer_instance

/-- What `rtl838x_rb_cleanup` and `rtl838x_hw_receive` write to a ring word. -/
def Cfg.rearmWord (g : Cfg) (r j : Nat) : U32 :=
  kseg1addr (g.hdrAddr r j) ||| 1#32 ||| (if j = g.rxringlen - 1 then wrap else 1#32)

/-! ### Tags -/

/-- The fields of `struct dsa_tag` that `rtl838x_hw_receive` uses -/
structure DsaTag where
  port : U16
  l2Offloaded : Bool

/-- `rtl838x_decode_tag` -/
def rtl838xDecodeTag (cpuTag : Fin 10 → U16) : DsaTag where
  -- NIC_RX_REASON_SPECIAL_TRAP
  l2Offloaded := cpuTag 3 &&& 0xf#16 ≠ 4#16
  port := cpuTag 1 &&& 0x1f#16

/-- `rtl839x_decode_tag` -/
def rtl839xDecodeTag (cpuTag : Fin 10 → U16) : DsaTag :=
  let reason := cpuTag 4 &&& 0x1f#16
  -- NIC_RX_REASON_RMA_USR
  { l2Offloaded := reason ≠ 7#16 ∧ reason ≠ 8#16
    port := cpuTag 1 &&& 0x3f#16 }

/-- `rtl931x_decode_tag` -/
def rtl931xDecodeTag (cpuTag : Fin 10 → U16) : DsaTag :=
  let reason := cpuTag 7 &&& 0x3f#16
  { l2Offloaded := ¬(19 ≤ reason.toNat ∧ reason.toNat ≤ 27)
    port := (cpuTag 0 >>> 8) &&& 0x3f#16 }

/-- `rtl930x_decode_tag` -/
def rtl930xDecodeTag (cpuTag : Fin 10 → U16) : DsaTag :=
  let t := rtl931xDecodeTag cpuTag
  { t with port := t.port &&& 0x1f#16 }

/-- `decode_tag` -/
def Family.decodeTag : Family → (Fin 10 → U16) → DsaTag
  | .rtl8380 => rtl838xDecodeTag
  | .rtl8390 => rtl839xDecodeTag
  | .rtl9300 => rtl930xDecodeTag
  | .rtl9310 => rtl931xDecodeTag

/-! ### Buffers of the network stack -/

/-- `struct sk_buff`: the size of the buffer, the room before the data, and the data. -/
structure SkBuff where
  size : Nat
  headroom : Nat
  data : List UInt8

/-- `alloc_skb`; `alloc` is whether there is memory. -/
def allocSkb (alloc : Bool) (size : Nat) : Option SkBuff :=
  if alloc then some { size := size, headroom := 0, data := [] } else none

/-- `skb_reserve` writes through the pointer; the result is `none` if that is `NULL`. -/
def skbReserve (skb : Option SkBuff) (len : Nat) : Option (Option SkBuff) :=
  match skb with
  | none => none
  | some skb => some (some { skb with headroom := skb.headroom + len })

/-- `skb_put` of the bytes that are copied there; the result is `none` if the kernel stops because
    they do not fit. -/
def skbPut (skb : SkBuff) (bytes : List UInt8) : Option SkBuff :=
  if skb.headroom + skb.data.length + bytes.length ≤ skb.size then
    some { skb with data := skb.data ++ bytes }
  else none

/-- Overwrite CRC with cpu_tag -/
def writeTag (tag : DsaTag) (data : List UInt8) : List UInt8 :=
  let len := data.length
  let port := UInt8.ofNat tag.port.toNat
  let data := data.set (len - 4) 0x80
  let data := data.set (len - 3) port
  let data := data.set (len - 2) 0x10
  let data := data.set (len - 1) 0x00
  if tag.l2Offloaded then data.set (len - 3) (port ||| 0x40) else data

/-! ### Turns of the loops -/

inductive Turn where
  /-- The loop is left. -/
  | stop
  /-- The kernel has stopped. -/
  | oops
  /-- A slot was handed back; the frame was passed up, or dropped if there is no data. -/
  | took (p : Priv) (data : Option (List UInt8))

/-- Hand the slot at `cRx` back to the switch. -/
def rearm (g : Cfg) (p : Priv) (r : Nat) (buf : U32) : Priv :=
  let c := p.cRx r
  { p with
    rxHeader := update2 p.rxHeader r c (resetHeader buf)
    rxR := update2 p.rxR r c (g.rearmWord r c)
    cRx := Function.update p.cRx r ((c + 1) % g.rxringlen) }

/-- The body of the loop of `rtl838x_hw_receive`; `alloc` is whether `alloc_skb` succeeds. A frame
    has its CRC. -/
def receiveTurn (g : Cfg) (p : Priv) (r : Nat) (dsa alloc : Bool) : Turn :=
  let c := p.cRx r
  if p.Owned r c then .stop
  else
    let h := p.rxHeader r c
    let data := kseg1addr h.buf
    if h.len = 0#16 then .stop
    else
      let len := h.len.toNat - 4 -- strip the CRC
      let len := if dsa then len + 4 else len -- Add 4 bytes for cpu_tag
      match skbReserve (allocSkb alloc (len + 4)) netIpAlign with
      -- `skb_reserve` on a null skb
      | none => .oops
      -- the allocation failed, the frame is dropped and its slot given back
      | some none => .took { rearm g p r data with rxDropped := p.rxDropped + 1 } none
      | some (some skb) =>
        match skbPut skb (bytesAt p.mem (kseg1addr data).toNat len) with
        | none => .oops
        | some skb =>
          let bytes := if dsa then writeTag (g.family.decodeTag h.cpuTag) skb.data else skb.data
          .took
            { rearm g p r data with
              rxPackets := p.rxPackets + 1
              rxBytes := p.rxBytes + len } (some bytes)

/-- The body of the loop of `rtl838x_rb_cleanup`; the result is `none` if the loop is left. -/
def cleanupTurn (g : Cfg) (p : Priv) (r : Nat) : Option Priv :=
  let c := p.cRx r
  if p.Owned r c then none else some (rearm g p r (g.bufAddr r c))

end HandsomeMod.Native.Rtl838x.Rx
