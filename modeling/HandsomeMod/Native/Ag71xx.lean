import HandsomeMod.ForStd.Ring

/-!
# The ag71xx Ethernet driver

Embeds the device data and the ring sizes of `ag71xx_main.c`, `ag71xx_ethtool.c` and `ag71xx.h`.
The `ctrl` word of a descriptor is modelled by its fields, which do not overlap for frames below
2^24 bytes.
-/

namespace HandsomeMod.Native.Ag71xx

/-- The devices of `ag71xx_match`. -/
inductive Compatible where
  | ar7100
  | ar7240
  | ar7241
  | ar7242
  | ar9130
  | ar9330
  | ar9340
  | qca9530
  | qca9550
  | qca9560
  deriving Repr, DecidableEq

/-- `ag->desc_pktlen_mask` -/
def Compatible.descPktlenMask : Compatible → Nat
  | .ar9340 | .qca9530 | .qca9550 | .qca9560 => 16 * 1024 - 1
  | _ => 4 * 1024 - 1

/-- `max_frame_len` of `ag71xx_probe` -/
def Compatible.maxFrameLen (c : Compatible) : Nat :=
  if c.descPktlenMask = 16 * 1024 - 1 ∧ c ≠ .qca9550 ∧ c ≠ .qca9560 then c.descPktlenMask else 1540

/-- `AG71XX_TX_RING_SPLIT` -/
def txRingSplit : Nat := 512

/-- `AG71XX_TX_RING_DS_PER_PKT` -/
def txRingDsPerPkt : Nat := (1540 + txRingSplit - 1) / txRingSplit

/-- `ag->tx_ring.desc_split` -/
def Compatible.descSplit : Compatible → Nat
  | .ar7100 => txRingSplit
  | _ => 0

def txRingSizeMax : Nat := 128

def rxRingSizeMax : Nat := 256

/-- `fls`: the number of bits of a number. -/
def fls : Nat → Nat
  | 0 => 0
  | n + 1 => Nat.log2 (n + 1) + 1

def ringSizeOrder (size : Nat) : Nat := fls (size - 1)

/-- `ag->tx_ring.order` for a requested size; `ag71xx_probe` asks for the largest. -/
def Compatible.txOrder (c : Compatible) (txPending : Nat) : Nat :=
  let txSize := if txPending < txRingSizeMax then txPending else txRingSizeMax
  ringSizeOrder (if c.descSplit ≠ 0 then txSize * txRingDsPerPkt else txSize)

/-- `ag->rx_ring.order` -/
def rxOrder (rxPending : Nat) : Nat :=
  ringSizeOrder (if rxPending < rxRingSizeMax then rxPending else rxRingSizeMax)

/-- What the kernel fixes about socket buffers. -/
structure SkbCfg where
  netSkbPad : Nat
  netIpAlign : Nat
  smpCacheBytes : Nat
  cacheBytes_pos : 0 < smpCacheBytes

/-- `SKB_DATA_ALIGN` -/
def SkbCfg.dataAlign (skb : SkbCfg) (n : Nat) : Nat :=
  (n + (skb.smpCacheBytes - 1)) / skb.smpCacheBytes * skb.smpCacheBytes

/-- Values of a kernel for 32-byte cache lines -/
abbrev SkbCfg.line32 : SkbCfg :=
  { netSkbPad := 32, netIpAlign := 2, smpCacheBytes := 32, cacheBytes_pos := by decide }

/-- `ag->rx_buf_offset` -/
def Compatible.rxBufOffset (c : Compatible) (skb : SkbCfg) : Nat :=
  match c with
  | .ar7100 | .ar9130 => skb.netSkbPad
  | _ => skb.netSkbPad + skb.netIpAlign

/-- `struct ag71xx_desc` -/
structure Desc where
  data : UInt32
  /-- the length in `ctrl` -/
  pktlen : Nat
  /-- `DESC_MORE` -/
  more : Bool
  /-- `DESC_EMPTY` -/
  empty : Bool
  deriving DecidableEq

/-! ### Sizes -/

/-- `fls` counts the bits up to the highest one. -/
theorem lt_two_pow_fls (n : Nat) : n < 2 ^ fls n := by
  cases n with
  | zero => exact Nat.one_pos
  | succ n => exact Nat.lt_log2_self

/-- A number of `k` bits has its highest one among them. -/
theorem fls_le {n k : Nat} (h : n < 2 ^ k) : fls n ≤ k := by
  cases n with
  | zero => exact Nat.zero_le _
  | succ n => exact (Nat.log2_lt (Nat.succ_ne_zero n)).mpr h

/-- The RX ring has at most 256 descriptors. -/
theorem rxOrder_le (rxPending : Nat) : rxOrder rxPending ≤ 8 := by
  rw [rxOrder, ringSizeOrder]
  apply fls_le
  rw [rxRingSizeMax]
  split <;> omega

/-- The length field of a descriptor holds the longest frame of its chip. -/
theorem maxFrameLen_le_mask (c : Compatible) : c.maxFrameLen ≤ c.descPktlenMask := by
  cases c <;> decide

/-- A length that fits the field is kept by the mask. -/
theorem and_descPktlenMask (c : Compatible) {len : Nat} (h : len ≤ c.descPktlenMask) :
    len &&& c.descPktlenMask = len := by
  -- each mask is a run of ones
  have hmask : ∃ k, c.descPktlenMask = 2 ^ k - 1 := by
    cases c
    case ar9340 => exact ⟨14, rfl⟩
    case qca9530 => exact ⟨14, rfl⟩
    case qca9550 => exact ⟨14, rfl⟩
    case qca9560 => exact ⟨14, rfl⟩
    all_goals exact ⟨12, rfl⟩
  obtain ⟨k, hk⟩ := hmask
  have hpos := Nat.two_pow_pos k
  rw [hk] at h ⊢
  rw [Nat.and_two_pow_sub_one_eq_mod]
  exact Nat.mod_eq_of_lt (by omega)

/-- Only the chips with frames of 1540 bytes split them. -/
theorem descSplit_cases (c : Compatible) :
    c.descSplit = 0 ∨ c.descSplit = 512 ∧ c.maxFrameLen = 1540 := by
  cases c <;> decide

/-!
## The receive ring of ag71xx

Embeds `ag71xx_fill_rx_buf`, `ag71xx_ring_rx_init`, and single turns of the loops of
`ag71xx_rx_packets` and `ag71xx_ring_rx_refill`: the hardware completes descriptors while these
loops run. The ring also records which addresses are mapped for the device.
-/

open ForStd

/-- `struct ag71xx_buf` of the receive ring -/
structure RxBuf where
  rxBuf : Option Nat
  dmaAddr : UInt32

/-- The fields of `struct ag71xx` and of the ring that a run does not change. -/
structure RxCfg where
  order : Nat
  rxBufOffset : UInt32
  pktlenMask : Nat

def RxCfg.ringSize (g : RxCfg) : Nat := 2 ^ g.order

/-- The configuration for a requested ring size; `ag71xx_probe` asks for the largest. -/
def Compatible.rxCfg (c : Compatible) (skb : SkbCfg) (rxPending : Nat) : RxCfg :=
  { order := rxOrder rxPending
    rxBufOffset := UInt32.ofNat (c.rxBufOffset skb)
    pktlenMask := c.descPktlenMask }

/-- The other fields of `struct ag71xx_ring`, the descriptors, and the mapped addresses. -/
structure RxRing where
  desc : Nat → Desc
  buf : Nat → RxBuf
  curr : UInt32
  dirty : UInt32
  mapped : UInt32 → Bool

/-- A buffer from `alloc`, and its address from `dma_map_single`. -/
structure RxData where
  ptr : Nat
  dmaAddr : UInt32

/-- `ETH_FCS_LEN` -/
def ethFcsLen : Nat := 4

namespace RxRing

variable (g : RxCfg)

/-- `ag71xx_fill_rx_buf`; `none` is false. -/
def fillRxBuf (r : RxRing) (i : Nat) (data : Option RxData) : Option RxRing :=
  match data with
  | none => none
  | some d => some
    { r with
      buf := Function.update r.buf i { rxBuf := some d.ptr, dmaAddr := d.dmaAddr }
      desc := Function.update r.desc i { r.desc i with data := d.dmaAddr + g.rxBufOffset }
      mapped := Function.update r.mapped d.dmaAddr true }

/-- `desc->ctrl = DESC_EMPTY` -/
def setEmpty (r : RxRing) (i : Nat) : RxRing :=
  { r with
    desc := Function.update r.desc i { r.desc i with pktlen := 0, more := false, empty := true } }

/-- The second loop of `ag71xx_ring_rx_init`; false is -ENOMEM. -/
def initLoop (alloc : Nat → Option RxData) : List Nat → RxRing → RxRing × Bool
  | [], r => (r, true)
  | i :: is, r =>
    match r.fillRxBuf g i (alloc i) with
    | none => (r, false)
    | some r => initLoop alloc is (r.setEmpty i)

/-- `ag71xx_ring_rx_init` -/
def init (alloc : Nat → Option RxData) (r : RxRing) : RxRing × Bool :=
  let (r, ok) := initLoop g alloc (List.range g.ringSize) r
  ({ r with curr := 0, dirty := 0 }, ok)

/-- A turn of the loop of `ag71xx_ring_rx_refill`; `none` if the loop ends. -/
def refillTurn (r : RxRing) (data : Option RxData) : Option RxRing :=
  if r.curr - r.dirty > 0 then
    let i := Ring.slot g.order r.dirty
    let filled := if (r.buf i).rxBuf.isNone then r.fillRxBuf g i data else some r
    filled.map fun r => { r.setEmpty i with dirty := r.dirty + 1 }
  else none

/-- The hardware has written a frame of length `len` to the buffer of a descriptor. -/
def complete (r : RxRing) (i len : Nat) : RxRing :=
  { r with desc := Function.update r.desc i { r.desc i with pktlen := len, empty := false } }

/-- `dma_unmap_single`, `ring->buf[i].rx_buf = NULL`, `ring->curr++` -/
def take (r : RxRing) (i : Nat) : RxRing :=
  { r with
    mapped := Function.update r.mapped (r.buf i).dmaAddr false
    buf := Function.update r.buf i { r.buf i with rxBuf := none }
    curr := r.curr + 1 }

end RxRing

/-- What a turn of the loop of `ag71xx_rx_packets` comes to. -/
inductive RxTurn where
  /-- The loop ends. -/
  | done
  /-- `ag71xx_assert(0)` -/
  | bug
  /-- The buffer of a descriptor is passed to `build_skb`, and `pktlen` bytes of it to the stack. -/
  | packet (i : Nat) (rxBuf : Option Nat) (pktlen : Int)

def rxPacketsTurn (g : RxCfg) (r : RxRing) (limit done : Nat) : RxTurn :=
  if done < limit then
    let i := Ring.slot g.order r.curr
    if (r.desc i).empty then .done
    else if r.dirty + UInt32.ofNat g.ringSize = r.curr then .bug
    else .packet i (r.buf i).rxBuf (Int.ofNat ((r.desc i).pktlen &&& g.pktlenMask) - ethFcsLen)
  else .done

/-!
## The transmit ring of ag71xx

Embeds `ag71xx_ring_tx_init`, `ag71xx_fill_dma_desc`, `ag71xx_hard_start_xmit`, `ag71xx_tx_packets`
and what `ag71xx_fast_reset` does to the ring. An `sk_buff` is a number. The check for a stuck DMA
only schedules a restart and is not part of the model.
-/

/-- `struct ag71xx_buf` of the transmit ring -/
structure TxBuf where
  skb : Option Nat
  len : Nat
  deriving DecidableEq

/-- The fields of `struct ag71xx_ring` that a run does not change, and `ag->desc_pktlen_mask`. -/
structure TxCfg where
  order : Nat
  descSplit : Nat
  pktlenMask : Nat

def TxCfg.ringSize (g : TxCfg) : Nat := 2 ^ g.order

/-- The other fields of `struct ag71xx_ring`, and the descriptors. -/
structure TxRing where
  desc : Nat → Desc
  buf : Nat → TxBuf
  curr : UInt32
  dirty : UInt32

/-- The configuration for a requested ring size. -/
def Compatible.txCfg (c : Compatible) (txPending : Nat) : TxCfg :=
  { order := c.txOrder txPending, descSplit := c.descSplit, pktlenMask := c.descPktlenMask }

variable (g : TxCfg)

def ringTxInit (r : TxRing) : TxRing :=
  { desc := fun i => { r.desc i with pktlen := 0, more := false, empty := true }
    buf := fun i => { r.buf i with skb := none }
    curr := 0
    dirty := 0 }

/-- The loop of `ag71xx_fill_dma_desc`; `none` is -1. The first argument bounds the turns. -/
def fillDmaDescLoop (split : Nat) :
    Nat → TxRing → UInt32 → Nat → Nat → TxRing × Option Nat
  | 0, r, _, _, ndesc => (r, some ndesc)
  | fuel + 1, r, addr, len, ndesc =>
    if len = 0 then (r, some ndesc)
    else
      let i := Ring.slot g.order (r.curr + UInt32.ofNat ndesc)
      if !(r.desc i).empty then (r, none)
      else
        -- TX will hang if DMA transfers <= 4 bytes
        let curLen := if len > split then if len ≤ split + 4 then split - 4 else split else len
        -- DESC_EMPTY prevents an early tx attempt of the first descriptor
        let desc := { data := addr, pktlen := curLen, more := decide (len - curLen > 0)
                      empty := decide (ndesc = 0) }
        fillDmaDescLoop split fuel { r with desc := Function.update r.desc i desc }
          (addr + UInt32.ofNat curLen) (len - curLen) (ndesc + 1)

def fillDmaDesc (r : TxRing) (addr : UInt32) (len : Nat) : TxRing × Option Nat :=
  fillDmaDescLoop g (if g.descSplit = 0 then len else g.descSplit) len r addr len 0

/-- `ring_min` -/
def TxCfg.ringMin (g : TxCfg) : Nat := if g.descSplit ≠ 0 then 2 * txRingDsPerPkt else 2

inductive XmitResult where
  /-- The frame was queued; `stop` if the queue is stopped. -/
  | queued (stop : Bool)
  /-- The `sk_buff` was freed without being queued. -/
  | dropped
  deriving Repr, DecidableEq

/-- The frame at the descriptors from `first` to `last` is given to the hardware. -/
def TxRing.enqueue (r : TxRing) (first last n skb len : Nat) : TxRing :=
  { r with
    buf := Function.update r.buf last { skb := some skb, len := len }
    desc := Function.update r.desc first { r.desc first with empty := false }
    curr := r.curr + UInt32.ofNat n }

def hardStartXmit (r : TxRing) (skb len : Nat) (addr : UInt32) : TxRing × XmitResult :=
  if len ≤ 4 then (r, .dropped)
  else
    let first := Ring.slot g.order r.curr
    match fillDmaDesc g r addr (len &&& g.pktlenMask) with
    | (r, none) => (r, .dropped)
    | (r, some n) =>
      let last := Ring.slot g.order (r.curr + UInt32.ofNat n - 1)
      let r := r.enqueue first last n skb len
      -- `ring_size - ring_min` is negative for a small ring, and is compared as unsigned
      (r, .queued (decide (r.curr - r.dirty ≥ UInt32.ofNat g.ringSize - UInt32.ofNat g.ringMin)))

/-- `desc->ctrl |= DESC_EMPTY` -/
def TxRing.setEmpty (r : TxRing) (i : Nat) : TxRing :=
  { r with desc := Function.update r.desc i { r.desc i with empty := true } }

/-- `ring->buf[i].skb = NULL; ring->dirty += n` -/
def TxRing.release (r : TxRing) (i n : Nat) : TxRing :=
  { r with
    buf := Function.update r.buf i { r.buf i with skb := none }
    dirty := r.dirty + UInt32.ofNat n }

/-- The loop of `ag71xx_tx_packets`, with the `sk_buff`s that it frees. -/
def txPacketsLoop (flush : Bool) : Nat → Nat → TxRing → List Nat → TxRing × List Nat
  | 0, _, r, freed => (r, freed)
  | fuel + 1, n, r, freed =>
    if r.dirty + UInt32.ofNat n = r.curr then (r, freed)
    else
      let i := Ring.slot g.order (r.dirty + UInt32.ofNat n)
      if !flush && !(r.desc i).empty then (r, freed)
      else
        let r := if flush then r.setEmpty i else r
        match (r.buf i).skb with
        | none => txPacketsLoop flush fuel (n + 1) r freed
        | some skb => txPacketsLoop flush fuel 0 (r.release i (n + 1)) (freed ++ [skb])

/-- The ring, the `sk_buff`s that were freed, and whether the queue is woken. -/
def txPackets (flush : Bool) (r : TxRing) : TxRing × List Nat × Bool :=
  -- every turn that does not end the loop goes one descriptor further
  let (r, freed) := txPacketsLoop g flush (r.curr - r.dirty).toNat 0 r []
  (r, freed, decide (freed ≠ []) &&
    decide (r.curr - r.dirty < UInt32.ofNat (g.ringSize * 3 / 4)))

/-- The part of `ag71xx_fast_reset` that is about the ring. -/
def fastReset (r : TxRing) : TxRing × List Nat × Bool :=
  let (r, freed, wake) := txPackets g true r
  ({ r with curr := 0, dirty := 0 }, freed, wake)

end HandsomeMod.Native.Ag71xx

/-!
## Frame lengths of ag71xx

Embeds what `ag71xx_open`, `ag71xx_stop`, `ag71xx_change_mtu`, `ag71xx_phy_link_adjust`,
`ag71xx_restart_work_func` and `ag71xx_poll` do to the MTU, to the maximum frame length of the MAC,
to the receive engine and to the receive buffers.
-/

namespace HandsomeMod.Native.Ag71xx

/-- `ag71xx_max_frame_len`: a switch header, an Ethernet header, a VLAN header and a checksum are
    added to the MTU. -/
def maxFrameLen (mtu : Nat) : Nat := 2 + 14 + 4 + mtu + 4

/-- `dev->min_mtu` -/
def minMtu : Nat := 68

/-- `dev->max_mtu` -/
def Compatible.maxMtu (c : Compatible) : Nat := c.maxFrameLen - Ag71xx.maxFrameLen 0

structure Mac where
  /-- `dev->mtu` -/
  mtu : Nat
  /-- The register `MAC_MFL` -/
  mfl : Nat
  /-- `RX_CTRL_RXE` is set. -/
  rxe : Bool
  /-- `ag->link` -/
  link : Bool
  /-- The device is open. -/
  running : Bool
  /-- `ag->rx_buf_size` -/
  rxBufSize : Nat
  /-- The sizes of the buffers on the receive ring -/
  bufs : List Nat

namespace Mac

variable (c : Compatible) (skb : SkbCfg)

/-- `ag71xx_hw_stop` -/
def hwStop (s : Mac) : Mac := { s with rxe := false }

/-- `ag71xx_hw_setup` -/
def hwSetup (s : Mac) : Mac := { s with mfl := 0 }

/-- `ag71xx_fast_reset` -/
def fastReset (s : Mac) : Mac :=
  let s := s.hwStop.hwSetup
  -- setup max frame length
  { s with mfl := maxFrameLen s.mtu }

/-- `ag71xx_hw_start` -/
def hwStart (s : Mac) : Mac := { s with rxe := true }

/-- `__ag71xx_link_adjust` -/
def linkAdjust (s : Mac) (update : Bool) : Mac :=
  if !s.link && update then s.hwStop
  else if c ≠ .ar9130 ∧ c ≠ .ar7100 then s.fastReset.hwStart
  else s.hwStart

/-- `ag71xx_hw_enable`, where `ag71xx_ring_rx_init` allocates `n` buffers. -/
def hwEnable (s : Mac) (n : Nat) : Mac := { s with bufs := List.replicate n s.rxBufSize }

/-- `ag71xx_hw_disable` -/
def hwDisable (s : Mac) : Mac := { s.hwStop with bufs := [] }

/-- `ag71xx_open`; `n` buffers are allocated, and `ok` is whether that was all. -/
def «open» (s : Mac) (n : Nat) (ok : Bool) : Mac :=
  let len := maxFrameLen s.mtu
  let s := { s with
    rxBufSize := skb.dataAlign (len + skb.netSkbPad + skb.netIpAlign)
    mfl := len }
  let s := s.hwEnable n
  if ok then { s with running := true } else { s with bufs := [] }

/-- `ag71xx_stop` -/
def stop (s : Mac) : Mac :=
  let s := if s.link then Mac.linkAdjust c { s with link := false } true else s
  { s.hwDisable with running := false }

/-- `ag71xx_change_mtu` -/
def changeMtu (s : Mac) (newMtu : Nat) : Mac :=
  { s with mtu := newMtu, mfl := maxFrameLen newMtu }

/-- `ag71xx_phy_link_adjust`; `changed` is whether the speed or the duplex mode changes. -/
def phyLinkAdjust (s : Mac) (link changed : Bool) : Mac :=
  if link && changed || link != s.link then Mac.linkAdjust c { s with link := link } true
  else { s with link := link }

/-- `ag71xx_restart_work_func`, which allocates `n` buffers. -/
def restart (s : Mac) (n : Nat) : Mac :=
  let s := s.hwDisable.hwEnable n
  if s.link then Mac.linkAdjust c s false else s

/-- `ag71xx_poll` takes `taken` buffers from the ring and puts `filled` new ones there. It restarts
    the receive engine after an overflow. -/
def poll (s : Mac) (taken filled : Nat) (overflow : Bool) : Mac :=
  let s := { s with bufs := s.bufs.drop taken ++ List.replicate filled s.rxBufSize }
  if overflow then { s with rxe := true } else s

end Mac

end HandsomeMod.Native.Ag71xx
