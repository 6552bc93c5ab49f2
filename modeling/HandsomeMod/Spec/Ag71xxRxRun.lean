import HandsomeMod.ForStd.Run
import HandsomeMod.Spec.Ag71xxRxRing

/-!
# Runs of the receive ring

The hardware completes descriptors at any time, also while a poll takes frames and refills the ring.
Every frame is taken once and in order; it is handed up at the end of its poll, or its buffer is freed
if `build_skb` fails. A poll takes the frames that wait until it is at its limit, and comes to its
end. The assertion of `ag71xx_rx_packets` fails only in a poll that may take more frames than there
are buffers in the ring.
-/

namespace HandsomeMod.Native.Ag71xx

open ForStd

inductive RxPhase where
  | idle
  /-- In the loop of `ag71xx_rx_packets` -/
  | recv (limit done : Nat)
  /-- In the loop of `ag71xx_ring_rx_refill` -/
  | refill
  /-- Behind the loop, in front of `netif_receive_skb_list` -/
  | deliver
  /-- The kernel has stopped. -/
  | bug

/-- A frame that the driver took. -/
structure RxItem where
  /-- The argument of `build_skb` -/
  rxBuf : Option Nat
  /-- The bytes of the frame -/
  data : List UInt8
  /-- Whether `build_skb` succeeded -/
  built : Bool

/-- The driver and the hardware. -/
structure RxSys where
  ring : RxRing
  phase : RxPhase
  /-- The frame that was last written to an address. -/
  mem : UInt32 → List UInt8
  /-- The position of the descriptor that the hardware uses next. -/
  hw : Nat
  /-- The frames that the hardware has completed. -/
  completed : List (List UInt8)
  /-- The frames that the driver has taken. -/
  items : List RxItem
  /-- `rx_list` -/
  rxList : List (List UInt8)
  /-- The frames that were passed to `netif_receive_skb_list`. -/
  handedUp : List (List UInt8)
  /-- The buffers that were passed to `skb_free_frag`. -/
  freed : List (Option Nat)

namespace RxSys

def complete (g : RxCfg) (s : RxSys) (f : List UInt8) : RxSys :=
  { s with
    ring := s.ring.complete (s.hw % g.ringSize) f.length
    mem := Function.update s.mem (s.ring.desc (s.hw % g.ringSize)).data f
    hw := s.hw + 1
    completed := s.completed ++ [f] }

/-- A turn of the loop of `ag71xx_rx_packets`; `skb` is whether `build_skb` succeeds. -/
def recv (g : RxCfg) (s : RxSys) (limit done : Nat) (skb : Bool) : RxSys :=
  match rxPacketsTurn g s.ring limit done with
  | .done => { s with phase := .refill }
  | .bug => { s with phase := .bug }
  | .packet i rxBuf pktlen =>
    -- `skb_reserve(skb, offset); skb_put(skb, pktlen)`
    let data := (s.mem ((s.ring.buf i).dmaAddr + g.rxBufOffset)).take pktlen.toNat
    { s with
      ring := s.ring.take i
      phase := .recv limit (done + 1)
      items := s.items ++ [{ rxBuf := rxBuf, data := data, built := skb }]
      rxList := if skb then s.rxList ++ [data] else s.rxList
      freed := if skb then s.freed else s.freed ++ [rxBuf] }

/-- A turn of the loop of `ag71xx_ring_rx_refill`. -/
def refill (g : RxCfg) (s : RxSys) (data : Option RxData) : RxSys :=
  match s.ring.refillTurn g data with
  | none => { s with phase := .deliver }
  | some r => { s with ring := r }

/-- `netif_receive_skb_list(&rx_list)`, and the end of the poll. -/
def deliver (s : RxSys) : RxSys :=
  { s with phase := .idle, rxList := [], handedUp := s.handedUp ++ s.rxList }

end RxSys

/-- One step of the system. The polls are those that `ok` allows; a frame has a checksum and its
    length fits the descriptor; a new buffer is not one that is in use. -/
inductive RxStep (g : RxCfg) (ok : RxSys → Nat → Prop) : RxSys → RxSys → Prop where
  | complete (s : RxSys) (f : List UInt8)
      (hempty : (s.ring.desc (s.hw % g.ringSize)).empty = true)
      (hmin : ethFcsLen ≤ f.length) (hmax : f.length ≤ g.pktlenMask) :
      RxStep g ok s (s.complete g f)
  | poll (s : RxSys) (limit : Nat) (hphase : s.phase = .idle) (hok : ok s limit) :
      RxStep g ok s { s with phase := .recv limit 0, rxList := [] }
  | recv (s : RxSys) (limit done : Nat) (skb : Bool) (hphase : s.phase = .recv limit done) :
      RxStep g ok s (s.recv g limit done skb)
  | refill (s : RxSys) (data : Option RxData) (hphase : s.phase = .refill)
      (hnew : ∀ d, data = some d → s.ring.mapped d.dmaAddr = false) :
      RxStep g ok s (s.refill g data)
  | deliver (s : RxSys) (hphase : s.phase = .deliver) : RxStep g ok s s.deliver

/-- After a successful `ag71xx_ring_rx_init`. -/
def RxInit (g : RxCfg) (s : RxSys) : Prop :=
  (∃ alloc r, (∀ i < g.ringSize, ∀ j < g.ringSize, ∀ d e, alloc i = some d → alloc j = some e →
      d.dmaAddr = e.dmaAddr → i = j) ∧
    RxRing.init g alloc r = (s.ring, true)) ∧
  s.phase = .idle ∧ s.hw = 0 ∧ s.completed = [] ∧ s.items = [] ∧ s.rxList = [] ∧
  s.handedUp = [] ∧ s.freed = []

/-- A frame without its checksum -/
def payload (f : List UInt8) : List UInt8 := f.take (f.length - ethFcsLen)

/-- The frames in the ring that the driver has not taken. -/
def waiting (g : RxCfg) (s : RxSys) : List (List UInt8) :=
  (((List.range g.ringSize).map fun k => Ring.slot g.order (s.ring.curr + UInt32.ofNat k)).takeWhile
    fun i => !(s.ring.desc i).empty && (s.ring.buf i).rxBuf.isSome).map fun i =>
      (s.mem (s.ring.desc i).data).take ((s.ring.desc i).pktlen - ethFcsLen)

/-- What becomes of the frames that were taken. -/
structure Delivered (s : RxSys) : Prop where
  /-- Those with an `sk_buff` were handed up once and in order, or will be at the end of the poll. -/
  handed : s.handedUp ++ s.rxList = (s.items.filter fun item => item.built).map RxItem.data
  /-- The buffers of the others were freed once. -/
  freed : s.freed = (s.items.filter fun item => !item.built).map RxItem.rxBuf
  /-- No frame is left behind in `rx_list`. -/
  idle : s.phase = .idle → s.rxList = []

/-- What is promised about the ring. -/
structure RxGood (g : RxCfg) (s : RxSys) : Prop extends Delivered s where
  owned : ∀ i < g.ringSize, (s.ring.desc i).empty = true → RxOwned g s.ring i
  /-- `build_skb` is never called with NULL. -/
  built : ∀ item ∈ s.items, item.rxBuf ≠ none
  /-- Every frame was taken once and in order, or is still in the ring. -/
  once : s.completed.map payload = s.items.map RxItem.data ++ waiting g s

/-- A bound on the turns that are left of a poll. -/
def turnsLeft (g : RxCfg) (s : RxSys) : Nat :=
  match s.phase with
  | .recv limit done => (limit - done) + g.ringSize + 3
  | .refill => (s.ring.curr - s.ring.dirty).toNat + 2
  | .deliver => 1
  | _ => 0

/-- What is promised about a poll. -/
structure RxProgress (g : RxCfg) (s : RxSys) : Prop where
  /-- The next turn takes the first of the frames that wait. -/
  takes : ∀ {limit done}, s.phase = .recv limit done → done < limit →
    ∀ {f fs}, waiting g s = f :: fs → ∀ skb,
      (∃ rxBuf, (s.recv g limit done skb).items = s.items ++ [⟨rxBuf, f, skb⟩]) ∧
      waiting g (s.recv g limit done skb) = fs ∧
      (s.recv g limit done skb).phase = .recv limit (done + 1)
  /-- A poll that ends below its limit leaves no completed frame. -/
  ends : ∀ {limit done}, s.phase = .recv limit done → done < limit →
    ∀ {skb}, (s.recv g limit done skb).phase = .refill → waiting g s = []
  /-- Every turn of a poll brings its end nearer; the hardware does not put it off. -/
  complete_eq : ∀ f, turnsLeft g (s.complete g f) = turnsLeft g s
  recv_lt : ∀ {limit done}, s.phase = .recv limit done → ∀ skb,
    turnsLeft g (s.recv g limit done skb) < turnsLeft g s
  refill_lt : s.phase = .refill → ∀ {data : Option RxData},
    (∀ d, data = some d → s.ring.mapped d.dmaAddr = false) →
    turnsLeft g (s.refill g data) < turnsLeft g s
  deliver_lt : s.phase = .deliver → turnsLeft g s.deliver < turnsLeft g s

/-- Any poll is allowed. -/
def AnyPoll (_ : RxSys) (_ : Nat) : Prop := True

/-- The descriptors that have a buffer are at least as many as the poll may take. -/
def PollOk (g : RxCfg) (s : RxSys) (limit : Nat) : Prop :=
  limit ≤ g.ringSize - (s.ring.curr - s.ring.dirty).toNat

variable {g : RxCfg} {s s' : RxSys} {ok : RxSys → Nat → Prop} {d c h : Nat}

/-! ### Setting up the ring -/

/-- What the loop of `ag71xx_ring_rx_init` has set up when every allocation succeeded. -/
private theorem initLoop_spec {alloc : Nat → Option RxData} {is : List Nat} {r r' : RxRing}
    (hinit : RxRing.initLoop g alloc is r = (r', true)) :
    (∀ i ∈ is, ∃ data, alloc i = some data ∧
      r'.buf i = { rxBuf := some data.ptr, dmaAddr := data.dmaAddr } ∧
      r'.mapped data.dmaAddr = true ∧ (r'.desc i).data = data.dmaAddr + g.rxBufOffset ∧
      (r'.desc i).empty = true) ∧
    (∀ i ∉ is, r'.buf i = r.buf i ∧ r'.desc i = r.desc i) ∧
    ∀ a, r.mapped a = true → r'.mapped a = true := by
  -- Induction on the slots that are left: what a turn sets up is kept by the later ones.
  induction is generalizing r with
  | nil =>
    cases hinit
    exact ⟨fun i hi => absurd hi List.not_mem_nil, fun _ _ => ⟨rfl, rfl⟩, fun _ ha => ha⟩
  | cons j is ih =>
    rw [RxRing.initLoop] at hinit
    cases hdata : alloc j with
    | none =>
      rw [hdata] at hinit
      cases hinit
    | some data =>
      rw [hdata] at hinit
      obtain ⟨hin, hout, hmapped⟩ := ih hinit
      refine ⟨?_, ?_, ?_⟩
      -- the slot of this turn, unless a later turn comes to it again
      · intro i hi
        by_cases htail : i ∈ is
        · exact hin i htail
        · obtain rfl : i = j := by
            obtain rfl | hmem := List.mem_cons.mp hi
            · rfl
            · exact absurd hmem htail
          obtain ⟨hbuf, hdesc⟩ := hout i htail
          refine ⟨data, hdata, ?_, ?_, ?_, ?_⟩
          · rw [hbuf]
            exact Function.update_self ..
          · exact hmapped _ (Function.update_self ..)
          · rw [hdesc]
            simp [RxRing.setEmpty]
          · rw [hdesc]
            simp [RxRing.setEmpty]
      -- a slot that no turn comes to
      · intro i hi
        obtain ⟨hne, htail⟩ := List.ne_and_not_mem_of_not_mem_cons hi
        obtain ⟨hbuf, hdesc⟩ := hout i htail
        rw [hbuf, hdesc]
        simp [RxRing.setEmpty, Function.update_of_ne hne]
      -- no address is unmapped
      · intro a ha
        apply hmapped
        show Function.update r.mapped data.dmaAddr true a = true
        by_cases heq : a = data.dmaAddr
        · rw [heq, Function.update_self]
        · rw [Function.update_of_ne heq]
          exact ha

/-- Every descriptor of a new ring is empty and has a buffer of its own. -/
private theorem rxRep_init (horder : g.order ≤ 31) {alloc : Nat → Option RxData} {r r' : RxRing}
    (hdistinct : ∀ i < g.ringSize, ∀ j < g.ringSize, ∀ d e, alloc i = some d → alloc j = some e →
      d.dmaAddr = e.dmaAddr → i = j)
    (hinit : RxRing.init g alloc r = (r', true)) (mem : UInt32 → List UInt8)
    (frames : Nat → List UInt8) : RxRep g r' mem frames 0 0 0 := by
  -- `ag71xx_ring_rx_init` sets both counters to 0 after the loop
  have hpair : r' = { (RxRing.initLoop g alloc (List.range g.ringSize) r).1 with
      curr := 0, dirty := 0 } ∧ (RxRing.initLoop g alloc (List.range g.ringSize) r).2 = true := by
    rw [RxRing.init] at hinit
    exact ⟨(congrArg Prod.fst hinit).symm, congrArg Prod.snd hinit⟩
  obtain ⟨rfl, hok⟩ := hpair
  obtain ⟨hin, -, -⟩ := initLoop_spec (Prod.ext rfl hok)
  -- in a fresh ring a position is its own slot
  have hslot : ∀ p < 0 + g.ringSize, p % g.ringSize = p ∧ p ∈ List.range g.ringSize := fun p hp =>
    ⟨Nat.mod_eq_of_lt (by omega), List.mem_range.mpr (by omega)⟩
  constructor
  · exact horder
  · rfl
  · rfl
  · exact Nat.le_refl 0
  · exact Nat.le_refl 0
  · exact Nat.zero_le _
  -- no frame has been taken, and none waits
  · exact fun p _ hp => absurd hp (Nat.not_lt_zero p)
  · exact fun p _ hp => absurd hp (Nat.not_lt_zero p)
  · intro p _ hp
    obtain ⟨hmod, hmem⟩ := hslot p hp
    obtain ⟨data, -, -, -, -, hempty⟩ := hin p hmem
    rw [hmod]
    exact hempty
  · intro p _ hp
    obtain ⟨hmod, hmem⟩ := hslot p hp
    obtain ⟨data, -, hbuf, hmapped, hdata, -⟩ := hin p hmem
    rw [hmod]
    constructor
    · exact ⟨data.ptr, congrArg RxBuf.rxBuf hbuf⟩
    · simp only [hbuf]
      exact hmapped
    · simp only [hbuf]
      exact hdata
  · intro p q _ hp _ hq heq
    -- two slots with one address got it from one allocation
    obtain ⟨hmodp, hmemp⟩ := hslot p hp
    obtain ⟨hmodq, hmemq⟩ := hslot q hq
    obtain ⟨data, halloc, hbuf, -⟩ := hin p hmemp
    obtain ⟨data', halloc', hbuf', -⟩ := hin q hmemq
    rw [hmodp, hmodq] at heq
    simp only [hbuf, hbuf'] at heq
    exact hdistinct p (by omega) q (by omega) data data' halloc halloc' heq

/-! ### The invariant -/

/-- The ring holds the completed frames that were not taken, from `c` to `h`. -/
structure RxInv (g : RxCfg) (s : RxSys) (d c h : Nat) : Prop where
  rep : RxRep g s.ring s.mem (fun p => s.completed.getD p []) d c h
  hw_eq : s.hw = h
  length_eq : s.completed.length = h
  fits : ∀ f ∈ s.completed, ethFcsLen ≤ f.length ∧ f.length &&& g.pktlenMask = f.length
  items_eq : s.items.map RxItem.data = (s.completed.take c).map payload
  built : ∀ item ∈ s.items, item.rxBuf ≠ none

/-- The invariant is about the ring and the frames that were taken. -/
theorem RxInv.congr (hs : RxInv g s d c h) (hring : s'.ring = s.ring) (hmem : s'.mem = s.mem)
    (hhw : s'.hw = s.hw) (hcompleted : s'.completed = s.completed) (hitems : s'.items = s.items) :
    RxInv g s' d c h := by
  obtain ⟨hrep, hhw', hlength, hfits, heq, hbuilt⟩ := hs
  rw [← hring, ← hmem, ← hcompleted] at hrep
  rw [← hhw] at hhw'
  rw [← hcompleted] at hlength hfits heq
  rw [← hitems] at heq hbuilt
  exact ⟨hrep, hhw', hlength, hfits, heq, hbuilt⟩

/-- The invariant is not about the phase. -/
theorem RxInv.set_phase (hs : RxInv g s d c h) (phase : RxPhase) :
    RxInv g { s with phase := phase } d c h := hs.congr rfl rfl rfl rfl rfl

/-- A ring that was set up meets the invariant, with all positions at zero. -/
theorem RxInv.init (horder : g.order ≤ 31) (hs : RxInit g s) : RxInv g s 0 0 0 := by
  obtain ⟨⟨alloc, r, hdistinct, hinit⟩, -, hhw, hcompleted, hitems, -⟩ := hs
  refine ⟨rxRep_init horder hdistinct hinit _ _, hhw, ?_, ?_, ?_, ?_⟩
  · rw [hcompleted]
    rfl
  · rw [hcompleted]
    exact fun f hf => absurd hf List.not_mem_nil
  · rw [hcompleted, hitems]
    rfl
  · rw [hitems]
    exact fun item hitem => absurd hitem List.not_mem_nil

/-- The hardware completes a descriptor. -/
theorem RxInv.complete (hs : RxInv g s d c h)
    (hempty : (s.ring.desc (s.hw % g.ringSize)).empty = true) {f : List UInt8}
    (hmin : ethFcsLen ≤ f.length) (hmask : f.length &&& g.pktlenMask = f.length) :
    RxInv g (s.complete g f) d c (h + 1) := by
  have hr := hs.rep
  have hch := hr.le_done
  have hlen := hs.length_eq
  rw [hs.hw_eq, hr.next_empty_iff] at hempty
  have hnewlen : (s.completed ++ [f]).length = h + 1 := by
    rw [List.length_append, hlen]
    rfl
  -- the frames by position are the completed ones with one more at `h`
  have hframes : (fun p => (s.completed ++ [f]).getD p []) =
      Function.update (fun p => s.completed.getD p []) h f := by
    funext p
    obtain hlt | rfl | hgt := Nat.lt_trichotomy p h
    · rw [Function.update_of_ne (Nat.ne_of_lt hlt), List.getD_append _ _ _ _ (by omega)]
    · rw [Function.update_self, List.getD_append_right _ _ _ _ (by omega), hlen, Nat.sub_self]
      rfl
    · rw [Function.update_of_ne (Nat.ne_of_gt hgt), List.getD_eq_default _ _ (by omega),
        List.getD_eq_default _ _ (by omega)]
  -- the ring has one more completed slot, the driver's counters and items stay
  have hcomplete := hr.complete hempty f
  rw [← hframes, ← hs.hw_eq] at hcomplete
  refine ⟨?_, ?_, hnewlen, ?_, ?_, hs.built⟩
  · show RxRep g _ _ (fun p => (s.completed ++ [f]).getD p []) _ _ _
    rw [← hs.hw_eq]
    exact hcomplete
  · exact congrArg (· + 1) hs.hw_eq
  · intro f' hf'
    obtain hold | hnew := List.mem_append.mp hf'
    · exact hs.fits f' hold
    · rw [List.mem_singleton.mp hnew]
      exact ⟨hmin, hmask⟩
  · show s.items.map RxItem.data = ((s.completed ++ [f]).take c).map payload
    rw [List.take_append_of_le_length (by omega)]
    exact hs.items_eq

/-- A turn of the receive loop ends the loop, fails the assertion, or takes the next frame. -/
theorem RxInv.recv (hs : RxInv g s d c h) (limit done : Nat) (skb : Bool) :
    s.recv g limit done skb = { s with phase := .refill } ∧
      (done < limit → c = h ∧ h < d + g.ringSize) ∨
    s.recv g limit done skb = { s with phase := .bug } ∧ done < limit ∧ c = d + g.ringSize ∨
    RxInv g (s.recv g limit done skb) d (c + 1) h ∧
      (s.recv g limit done skb).phase = .recv limit (done + 1) ∧ done < limit ∧ c < h := by
  have hr := hs.rep
  have hch := hr.le_done
  have hle := hr.le_size
  rw [RxSys.recv, rxPacketsTurn]
  -- the cases are the branches of the turn, in the order of the source
  by_cases hlimit : done < limit
  · rw [if_pos hlimit, hr.slot_curr]
    simp only
    by_cases hempty : (s.ring.desc (c % g.ringSize)).empty = true
    · rw [if_pos hempty]
      exact .inl ⟨rfl, fun _ => hr.curr_empty_iff.mp hempty⟩
    · rw [if_neg hempty]
      rw [hr.curr_empty_iff] at hempty
      -- `ag71xx_assert` fails if the ring is full of taken slots
      by_cases hfull : s.ring.dirty + UInt32.ofNat g.ringSize = s.ring.curr
      · rw [if_pos hfull]
        exact .inr (.inl ⟨rfl, hlimit, hr.full_iff.mp hfull⟩)
      -- otherwise the descriptor at `curr` holds a frame
      · rw [if_neg hfull]
        rw [hr.full_iff] at hfull
        have hlt : c < h := by omega
        have hclen : c < s.completed.length := by
          rw [hs.length_eq]
          exact hlt
        obtain ⟨⟨b, hbuf⟩, -, hdata⟩ := hr.owned c (Nat.le_refl c) (by omega)
        obtain ⟨-, hpktlen, hmem⟩ := hr.waiting c (Nat.le_refl c) hlt
        rw [List.getD_eq_getElem _ _ hclen] at hpktlen hmem
        obtain ⟨hmin, hmask⟩ := hs.fits _ (List.getElem_mem hclen)
        refine .inr (.inr ⟨⟨hr.take hlt, hs.hw_eq, hs.length_eq, hs.fits, ?_, ?_⟩, rfl, hlimit, hlt⟩)
        · -- the buffer holds the frame at `c`
          simp only
          rw [List.map_append, hs.items_eq, List.map_singleton, ← hdata, hmem, hpktlen, hmask,
            ← List.take_concat_get' _ _ hclen, List.map_append, List.map_singleton, payload]
          have hint : (Int.ofNat s.completed[c].length - (ethFcsLen : Int)).toNat =
              s.completed[c].length - ethFcsLen := by
            rw [Int.ofNat_eq_natCast]
            omega
          rw [hint]
        · intro item hitem
          obtain hold | hnew := List.mem_append.mp hitem
          · exact hs.built item hold
          · rw [List.mem_singleton.mp hnew]
            simp only
            rw [hbuf]
            exact Option.some_ne_none b
  · rw [if_neg hlimit]
    exact .inl ⟨rfl, fun hlt => absurd hlt hlimit⟩

/-- A turn of the refill loop ends the loop, or gives a descriptor a new buffer. -/
theorem RxInv.refill (hs : RxInv g s d c h) {data : Option RxData}
    (hnew : ∀ d, data = some d → s.ring.mapped d.dmaAddr = false) :
    s.refill g data = { s with phase := .deliver } ∨
    RxInv g (s.refill g data) (d + 1) c h ∧ (s.refill g data).phase = s.phase := by
  have hr := hs.rep
  have hdc := hr.le_curr
  have hsize := hr.ringSize_lt
  have hle := hr.le_size
  have hch := hr.le_done
  rw [RxSys.refill, RxRing.refillTurn]
  -- the counters wrap, their difference does not
  have hpos : s.ring.curr - s.ring.dirty > 0 ↔ d < c := by
    rw [gt_iff_lt, UInt32.lt_iff_toNat_lt, hr.curr_eq, hr.dirty_eq,
      Ring.sub_ofNat hdc (by omega)]
    have hzero : (0 : UInt32).toNat = 0 := rfl
    omega
  by_cases hlt : d < c
  · rw [if_pos (hpos.mpr hlt), hr.slot_dirty]
    simp only
    rw [(hr.taken d (Nat.le_refl d) hlt).2, if_pos (by rfl)]
    cases data with
    | none => exact .inl rfl
    | some data =>
      have hfill := hr.refill hlt (hnew data rfl) rfl
      exact .inr ⟨⟨hfill, hs.hw_eq, hs.length_eq, hs.fits, hs.items_eq, hs.built⟩, rfl⟩
  · rw [if_neg (fun hgt => hlt (hpos.mp hgt))]
    exact .inl rfl

/-! ### Delivery -/

/-- The slots in front of the first one that fails a test. -/
private theorem takeWhile_range {n m : Nat} {p : Nat → Bool} (hle : m ≤ n)
    (hp : ∀ k < m, p k = true)
    (hm : m < n → p m = false) : (List.range n).takeWhile p = List.range m := by
  obtain ⟨k, rfl⟩ := Nat.exists_eq_add_of_le hle
  rw [List.range_add, List.takeWhile_append_of_pos fun i hi => hp i (List.mem_range.mp hi)]
  cases k with
  | zero => simp
  | succ k =>
    have hstop := hm (by omega)
    rw [List.range_succ_eq_map, List.map_cons, Nat.add_zero, List.takeWhile_cons, hstop]
    simp

/-- The frames in the ring are the completed ones that were not taken. -/
theorem RxInv.waiting_eq (hs : RxInv g s d c h) :
    waiting g s = (s.completed.drop c).map payload := by
  have hr := hs.rep
  have hdc := hr.le_curr
  have hch := hr.le_done
  have hle := hr.le_size
  have hslot : ∀ k, Ring.slot g.order (s.ring.curr + UInt32.ofNat k) = (c + k) % g.ringSize := by
    intro k
    have horder := hr.order_le
    rw [hr.curr_eq, ← UInt32.ofNat_add, Ring.slot_ofNat (by omega)]
    rfl
  -- the slots from `curr` on that hold a frame with a buffer are the first `h - c`
  have htake : (List.range g.ringSize).takeWhile
      ((fun i => !(s.ring.desc i).empty && (s.ring.buf i).rxBuf.isSome) ∘
        fun k => (c + k) % g.ringSize) = List.range (h - c) := by
    apply takeWhile_range (by omega)
    · intro k hk
      obtain ⟨hempty, -⟩ := hr.waiting (c + k) (by omega) (by omega)
      obtain ⟨b, hbuf⟩ := (hr.owned (c + k) (by omega) (by omega)).rxBuf
      simp only [Function.comp, hempty, hbuf]
      rfl
    · intro hlt
      simp only [Function.comp]
      rw [show c + (h - c) = h by omega]
      by_cases hfull : h < d + g.ringSize
      · rw [hr.next_empty_iff.mpr hfull]
        rfl
      · -- behind the last frame comes a descriptor without a buffer
        have hmod : h % g.ringSize = d % g.ringSize := by
          rw [show h = d + g.ringSize by omega, Nat.add_mod_right]
        rw [hmod, (hr.taken d (Nat.le_refl d) (by omega)).2]
        exact Bool.and_false _
  rw [waiting]
  simp only [hslot]
  rw [List.takeWhile_map, htake, List.map_map]
  -- the bytes of each are those of the completed frame
  apply List.ext_getElem
  · rw [List.length_map, List.length_range, List.length_map, List.length_drop, hs.length_eq]
  · intro k hk hk'
    rw [List.length_map, List.length_range] at hk
    have hlen : c + k < s.completed.length := by
      rw [hs.length_eq]
      omega
    obtain ⟨-, hpktlen, hmem⟩ := hr.waiting (c + k) (by omega) (by omega)
    rw [List.getD_eq_getElem _ _ hlen] at hpktlen hmem
    rw [List.getElem_map, List.getElem_range, List.getElem_map, List.getElem_drop]
    simp only [Function.comp]
    rw [hmem, hpktlen, payload]

/-- No frame waits exactly if every completed one was taken. -/
theorem RxInv.waiting_eq_nil (hs : RxInv g s d c h) (heq : c = h) : waiting g s = [] := by
  rw [hs.waiting_eq, List.drop_eq_nil_of_le (by rw [hs.length_eq, heq]), List.map_nil]

/-- The invariant and the deliveries say what is promised about the ring. -/
theorem RxInv.good (hs : RxInv g s d c h) (hdel : Delivered s) : RxGood g s where
  toDelivered := hdel
  owned := by
    intro i hi hempty
    have hr := hs.rep
    have hdc := hr.le_curr
    have hch := hr.le_done
    obtain ⟨p, hp, hp', rfl⟩ := Ring.exists_position d hi
    rw [hr.empty_iff hp hp'] at hempty
    exact hr.owned p (by omega) hp'
  built := hs.built
  once := by rw [hs.waiting_eq, hs.items_eq, ← List.map_append, List.take_append_drop]

/-- At first no frame was taken. -/
theorem Delivered.init (hs : RxInit g s) : Delivered s := by
  obtain ⟨-, -, -, -, hitems, hlist, hhanded, hfreed⟩ := hs
  constructor
  · rw [hhanded, hlist, hitems]
    rfl
  · rw [hfreed, hitems]
    rfl
  · exact fun _ => hlist

/-- A turn of the receive loop puts the frame into `rx_list`, or frees its buffer. -/
theorem Delivered.recv (hs : Delivered s) (limit done : Nat) (skb : Bool) :
    Delivered (s.recv g limit done skb) := by
  rw [RxSys.recv]
  cases rxPacketsTurn g s.ring limit done with
  | done => exact ⟨hs.handed, hs.freed, nofun⟩
  | bug => exact ⟨hs.handed, hs.freed, nofun⟩
  | packet i rxBuf pktlen =>
    refine ⟨?_, ?_, nofun⟩
    -- a built frame is added to the list, one without an skb is freed
    · rw [List.filter_append, List.map_append, ← hs.handed, List.append_assoc]
      cases skb with
      | true => rfl
      | false =>
        show s.handedUp ++ s.rxList = s.handedUp ++ (s.rxList ++ [])
        rw [List.append_nil]
    · rw [List.filter_append, List.map_append, ← hs.freed]
      cases skb with
      | true =>
        show s.freed = s.freed ++ []
        rw [List.append_nil]
      | false => rfl

/-- A step hands up or frees what it takes, or keeps it in `rx_list`. -/
theorem Delivered.step (hs : Delivered s) (hstep : RxStep g ok s s') : Delivered s' := by
  -- only the frame loop adds to the list, and only the delivery hands it up
  cases hstep with
  | complete f hempty hmin hmax => exact ⟨hs.handed, hs.freed, hs.idle⟩
  | poll limit hphase hok =>
    have hhanded := hs.handed
    rw [hs.idle hphase] at hhanded
    exact ⟨hhanded, hs.freed, nofun⟩
  | recv limit done skb hphase => exact hs.recv limit done skb
  | refill data hphase hnew =>
    rw [RxSys.refill]
    cases s.ring.refillTurn g data with
    | none => exact ⟨hs.handed, hs.freed, nofun⟩
    | some r => exact ⟨hs.handed, hs.freed, hs.idle⟩
  | deliver hphase =>
    refine ⟨?_, hs.freed, fun _ => rfl⟩
    show s.handedUp ++ s.rxList ++ [] = _
    rw [List.append_nil]
    exact hs.handed

/-! ### Progress -/

/-- The frame of a turn that goes on. -/
private theorem recv_items {limit done : Nat} {skb : Bool}
    (hphase : (s.recv g limit done skb).phase = .recv limit (done + 1)) :
    ∃ rxBuf data, (s.recv g limit done skb).items = s.items ++ [⟨rxBuf, data, skb⟩] ∧
      (s.recv g limit done skb).completed = s.completed := by
  revert hphase
  rw [RxSys.recv]
  cases rxPacketsTurn g s.ring limit done with
  | done => exact nofun
  | bug => exact nofun
  | packet i rxBuf pktlen => exact fun _ => ⟨_, _, rfl, rfl⟩

/-- While a frame waits a turn takes the first one. -/
theorem RxInv.takes (hs : RxInv g s d c h) {limit done : Nat} (hlt : done < limit)
    {f : List UInt8} {fs : List (List UInt8)} (hwait : waiting g s = f :: fs) (skb : Bool) :
    (∃ rxBuf, (s.recv g limit done skb).items = s.items ++ [⟨rxBuf, f, skb⟩]) ∧
    waiting g (s.recv g limit done skb) = fs ∧
    (s.recv g limit done skb).phase = .recv limit (done + 1) := by
  have hch := hs.rep.le_done
  have hle := hs.rep.le_size
  have hnot : c ≠ h := by
    intro heq
    rw [hs.waiting_eq_nil heq] at hwait
    cases hwait
  -- a frame is waiting and the ring is not overrun, so the turn takes one
  obtain ⟨-, hend⟩ | ⟨-, -, hfull⟩ | ⟨hs', hphase, -, hlt'⟩ := hs.recv limit done skb
  · exact absurd (hend hlt).1 hnot
  · omega
  · obtain ⟨rxBuf, data, hitems, hcompleted⟩ := recv_items hphase
    have hclen : c < s.completed.length := by
      rw [hs.length_eq]
      exact hlt'
    rw [hs.waiting_eq, List.drop_eq_getElem_cons hclen, List.map_cons] at hwait
    obtain ⟨rfl, rfl⟩ := List.cons.inj hwait
    refine ⟨⟨rxBuf, ?_⟩, ?_, hphase⟩
    · -- the frame is the one at position `c`
      have hdata := hs'.items_eq
      rw [hitems, hcompleted, ← List.take_concat_get' _ _ hclen, List.map_append, List.map_append,
        hs.items_eq, List.append_cancel_left_eq, List.map_singleton, List.map_singleton] at hdata
      rw [hitems, ← List.singleton_inj.mp hdata]
    · rw [hs'.waiting_eq, hcompleted]

/-- The invariant says what is promised about a poll. -/
theorem RxInv.progress (hs : RxInv g s d c h) : RxProgress g s where
  takes := fun _ hlt _ _ hwait skb => hs.takes hlt hwait skb
  ends := by
    intro limit done _ hlt skb hphase
    -- with a frame left the turn would have taken it
    cases hwait : waiting g s with
    | nil => rfl
    | cons f fs =>
      rw [(hs.takes hlt hwait skb).2.2] at hphase
      cases hphase
  complete_eq := fun _ => rfl
  -- taking a frame uses up one of the budget, every other outcome leaves the loop for the refill
  recv_lt := by
    intro limit done hphase skb
    have hdc := hs.rep.le_curr
    have hch := hs.rep.le_done
    have hle := hs.rep.le_size
    have hsize := hs.rep.ringSize_lt
    have hbefore : turnsLeft g s = (limit - done) + g.ringSize + 3 := by
      rw [turnsLeft, hphase]
    rw [hbefore]
    -- the loop ends, the ring is overrun, or a frame is taken
    obtain ⟨heq, -⟩ | ⟨heq, -⟩ | ⟨-, hphase', hlt, -⟩ := hs.recv limit done skb
    · rw [heq]
      show (s.ring.curr - s.ring.dirty).toNat + 2 < _
      rw [hs.rep.curr_eq, hs.rep.dirty_eq, Ring.sub_ofNat hdc (by omega)]
      omega
    · rw [heq]
      exact Nat.succ_pos _
    · rw [turnsLeft, hphase']
      show (limit - (done + 1)) + g.ringSize + 3 < _
      omega
  -- a refill moves `dirty` towards `curr`, or it fails and only the delivery is left
  refill_lt := by
    intro hphase data hnew
    have hdc := hs.rep.le_curr
    have hch := hs.rep.le_done
    have hle := hs.rep.le_size
    have hsize := hs.rep.ringSize_lt
    have hbefore : turnsLeft g s = (c - d) + 2 := by
      rw [turnsLeft, hphase]
      show (s.ring.curr - s.ring.dirty).toNat + 2 = _
      rw [hs.rep.curr_eq, hs.rep.dirty_eq, Ring.sub_ofNat hdc (by omega)]
    rw [hbefore]
    obtain heq | ⟨hs', hphase'⟩ := hs.refill hnew
    · rw [heq]
      show 1 < _
      omega
    · have hdc' := hs'.rep.le_curr
      rw [turnsLeft, hphase', hphase]
      show ((s.refill g data).ring.curr - (s.refill g data).ring.dirty).toNat + 2 < _
      rw [hs'.rep.curr_eq, hs'.rep.dirty_eq, Ring.sub_ofNat hdc' (by omega)]
      omega
  deliver_lt := by
    intro hphase
    rw [turnsLeft, turnsLeft, hphase]
    exact Nat.one_pos

/-! ### Runs -/

section Runs

variable (horder : g.order ≤ 31) (hmask : ∀ len ≤ g.pktlenMask, len &&& g.pktlenMask = len)

include hmask

/-- Every step keeps the invariant; the positions move. -/
theorem RxInv.step (hs : RxInv g s d c h) (hstep : RxStep g ok s s') :
    ∃ d' c' h', RxInv g s' d' c' h' := by
  -- completing moves `h`, taking a frame `c`, refilling a slot `d`
  cases hstep with
  | complete f hempty hmin hmax =>
    exact ⟨d, c, h + 1, hs.complete hempty hmin (hmask _ hmax)⟩
  | poll limit hphase hok => exact ⟨d, c, h, hs.congr rfl rfl rfl rfl rfl⟩
  | recv limit done skb hphase =>
    obtain ⟨heq, -⟩ | ⟨heq, -⟩ | ⟨hs', -⟩ := hs.recv limit done skb
    · rw [heq]
      exact ⟨d, c, h, hs.set_phase _⟩
    · rw [heq]
      exact ⟨d, c, h, hs.set_phase _⟩
    · exact ⟨d, c + 1, h, hs'⟩
  | refill data hphase hnew =>
    obtain heq | ⟨hs', -⟩ := hs.refill hnew
    · rw [heq]
      exact ⟨d, c, h, hs.set_phase _⟩
    · exact ⟨d + 1, c, h, hs'⟩
  | deliver hphase => exact ⟨d, c, h, hs.congr rfl rfl rfl rfl rfl⟩

include horder

/-- Every reachable state meets the invariant. -/
theorem run_rxInv (hs : Reachable (RxInit g) (RxStep g ok) s) : ∃ d c h, RxInv g s d c h := by
  apply hs.invariant (p := fun s => ∃ d c h, RxInv g s d c h)
  · intro s hinit
    exact ⟨0, 0, 0, RxInv.init horder hinit⟩
  · rintro s s' ⟨d, c, h, hs⟩ hstep
    exact hs.step hmask hstep

omit horder hmask in

/-- Every reachable state accounts for the frames that were taken. -/
theorem run_delivered (hs : Reachable (RxInit g) (RxStep g ok) s) : Delivered s :=
  hs.invariant (fun _ hinit => .init hinit) fun _ _ hs hstep => hs.step hstep

omit horder hmask

/-! ### The assertion -/

/-- What a poll may still take fits in the ring. -/
def Budget (g : RxCfg) (s : RxSys) (d c : Nat) : Prop :=
  match s.phase with
  | .recv limit done => limit + c ≤ done + d + g.ringSize
  | .bug => False
  | _ => True

/-- The condition on the limit in the positions of the ring. -/
theorem RxInv.pollOk_iff (hs : RxInv g s d c h) (limit : Nat) :
    PollOk g s limit ↔ limit + c ≤ d + g.ringSize := by
  have hr := hs.rep
  have hdc := hr.le_curr
  have hch := hr.le_done
  have hle := hr.le_size
  have hsize := hr.ringSize_lt
  rw [PollOk, hr.curr_eq, hr.dirty_eq, Ring.sub_ofNat hdc (by omega)]
  omega

include hmask

/-- Polls within the ring keep to the descriptors that have a buffer. -/
theorem Budget.step (hs : RxInv g s d c h) (hb : Budget g s d c)
    (hstep : RxStep g (PollOk g) s s') : ∃ d' c' h', RxInv g s' d' c' h' ∧ Budget g s' d' c' := by
  cases hstep with
  | complete f hempty hmin hmax =>
    exact ⟨d, c, h + 1, hs.complete hempty hmin (hmask _ hmax), hb⟩
  | poll limit hphase hok =>
    refine ⟨d, c, h, hs.congr rfl rfl rfl rfl rfl, ?_⟩
    rw [hs.pollOk_iff] at hok
    show limit + c ≤ 0 + d + g.ringSize
    omega
  | recv limit done skb hphase =>
    rw [Budget, hphase] at hb
    -- the frame loop ends, meets a full ring, which the budget excludes, or takes a frame
    obtain ⟨heq, -⟩ | ⟨heq, hlt, hfull⟩ | ⟨hs', hphase', -⟩ := hs.recv limit done skb
    · rw [heq]
      exact ⟨d, c, h, hs.set_phase _, trivial⟩
    · simp only at hb
      omega
    · refine ⟨d, c + 1, h, hs', ?_⟩
      simp only at hb
      rw [Budget, hphase']
      simp only
      omega
  | refill data hphase hnew =>
    obtain heq | ⟨hs', hphase'⟩ := hs.refill hnew
    · rw [heq]
      exact ⟨d, c, h, hs.set_phase _, trivial⟩
    · refine ⟨d + 1, c, h, hs', ?_⟩
      rw [Budget, hphase', hphase]
      trivial
  | deliver hphase => exact ⟨d, c, h, hs.congr rfl rfl rfl rfl rfl, trivial⟩

/-- The hardware fills the ring. -/
private theorem exists_full (hs : RxInv g s d c h) (hmin : ethFcsLen ≤ g.pktlenMask) :
    ∃ s', Relation.ReflTransGen (RxStep g AnyPoll) s s' ∧ RxInv g s' d c (d + g.ringSize) ∧
      s'.phase = s.phase := by
  have hle := hs.rep.le_size
  obtain ⟨n, hn⟩ := Nat.exists_eq_add_of_le hle
  -- the hardware completes the descriptors that are left, with frames of the least length
  induction n generalizing s h with
  | zero =>
    rw [hn]
    exact ⟨s, .refl, hs, rfl⟩
  | succ n ih =>
    have hempty : (s.ring.desc (s.hw % g.ringSize)).empty = true := by
      rw [hs.hw_eq, hs.rep.next_empty_iff]
      omega
    have hlen : (List.replicate ethFcsLen (0 : UInt8)).length = ethFcsLen := List.length_replicate
    have hstep : RxStep g AnyPoll s (s.complete g (List.replicate ethFcsLen 0)) :=
      .complete s _ hempty (by rw [hlen]) (by rw [hlen]; exact hmin)
    have hnext := hs.complete hempty (f := List.replicate ethFcsLen 0) (by rw [hlen])
      (hmask _ (by rw [hlen]; exact hmin))
    obtain ⟨s', hrun, hs', hphase⟩ := ih hnext (by omega) (by omega)
    exact ⟨s', .head hstep hrun, hs', hphase⟩

omit hmask in
/-- A poll takes the frames of a full ring, and wants one more. -/
private theorem exists_bug_of_full {limit done : Nat} (hs : RxInv g s d c (d + g.ringSize))
    (hphase : s.phase = .recv limit done) (hmore : done + d + g.ringSize < limit + c) :
    ∃ s', Relation.ReflTransGen (RxStep g AnyPoll) s s' ∧ s'.phase = .bug := by
  obtain ⟨n, hn⟩ := Nat.exists_eq_add_of_le hs.rep.le_done
  -- the loop takes the whole ring and comes to the slot it has not given back
  induction n generalizing s c done with
  | zero =>
    have hstep : RxStep g AnyPoll s (s.recv g limit done true) := .recv s limit done true hphase
    obtain ⟨-, hdone⟩ | ⟨heq, -⟩ | ⟨-, -, -, hlt⟩ := hs.recv limit done true
    · have hfull := hdone (by omega)
      omega
    · rw [heq] at hstep
      exact ⟨_, .single hstep, rfl⟩
    · omega
  | succ n ih =>
    have hstep : RxStep g AnyPoll s (s.recv g limit done true) := .recv s limit done true hphase
    obtain ⟨-, hdone⟩ | ⟨-, -, hfull⟩ | ⟨hs', hphase', -⟩ := hs.recv limit done true
    · have hfull := hdone (by omega)
      omega
    · omega
    · obtain ⟨s', hrun, hbug⟩ := ih hs' hphase' (by omega) (by omega)
      exact ⟨s', .head hstep hrun, hbug⟩

/-- A poll that may take more frames than the ring has buffers can fail the assertion. -/
theorem RxInv.exists_bug (hs : RxInv g s d c h) (hmin : ethFcsLen ≤ g.pktlenMask) {limit : Nat}
    (hlimit : ¬PollOk g s limit) :
    ∃ s', Relation.ReflTransGen (RxStep g AnyPoll) { s with phase := .recv limit 0 } s' ∧
      s'.phase = .bug := by
  rw [hs.pollOk_iff] at hlimit
  obtain ⟨s1, hfill, hs1, hphase⟩ := exists_full hmask (hs.set_phase (.recv limit 0)) hmin
  obtain ⟨s2, htake, hbug⟩ := exists_bug_of_full hs1 hphase (by omega)
  exact ⟨s2, hfill.trans htake, hbug⟩

end Runs

/-! ### The rings of the devices -/

/-- The order of an RX ring is small enough for the counters. -/
theorem rxCfg_order_le (c : Compatible) (skb : SkbCfg) (rxPending : Nat) :
    (c.rxCfg skb rxPending).order ≤ 31 :=
  Nat.le_trans (rxOrder_le rxPending) (by decide)

/-- The length field of an RX descriptor is a mask of low bits. -/
theorem rxCfg_mask (c : Compatible) (skb : SkbCfg) (rxPending : Nat) :
    ∀ len ≤ (c.rxCfg skb rxPending).pktlenMask, len &&& (c.rxCfg skb rxPending).pktlenMask = len :=
  fun _ hlen => and_descPktlenMask c hlen

/-- The length field holds the checksum of a frame. -/
theorem ethFcsLen_le_mask (c : Compatible) (skb : SkbCfg) (rxPending : Nat) :
    ethFcsLen ≤ (c.rxCfg skb rxPending).pktlenMask := by
  show ethFcsLen ≤ c.descPktlenMask
  cases c <;> decide

/-- A ring that was just set up: slot `i` has the buffer `i + 1`, at the address `i`. -/
def RxSys.fresh (g : RxCfg) : RxSys :=
  { ring := (RxRing.init g (fun i => some { ptr := i + 1, dmaAddr := UInt32.ofNat i })
      { desc := fun _ => ⟨0, 0, false, false⟩, buf := fun _ => ⟨none, 0⟩, curr := 0, dirty := 0,
        mapped := fun _ => false }).1
    phase := .idle
    mem := fun _ => []
    hw := 0
    completed := []
    items := []
    rxList := []
    handedUp := []
    freed := [] }

/-- Setting up the ring succeeds if every allocation does. -/
private theorem initLoop_ok {alloc : Nat → Option RxData} (halloc : ∀ i, (alloc i).isSome)
    (is : List Nat) (r : RxRing) : (RxRing.initLoop g alloc is r).2 = true := by
  induction is generalizing r with
  | nil => rfl
  | cons i is ih =>
    obtain ⟨data, hdata⟩ := Option.isSome_iff_exists.mp (halloc i)
    rw [RxRing.initLoop, hdata]
    exact ih _

/-- The first state of the examples is an initial one. -/
theorem rxInit_fresh (horder : g.order ≤ 31) : RxInit g (RxSys.fresh g) := by
  refine ⟨⟨_, _, ?_, Prod.ext rfl ?_⟩, rfl, rfl, rfl, rfl, rfl, rfl, rfl⟩
  · intro i hi j hj d e hd he heq
    have hsize : g.ringSize ≤ 2 ^ 31 := Nat.pow_le_pow_right Nat.two_pos horder
    have hval : ∀ k < g.ringSize, (UInt32.ofNat k).toNat = k := fun k hk =>
      UInt32.toNat_ofNat_of_lt' (show k < 2 ^ 32 by omega)
    cases hd
    cases he
    rw [← hval i hi, ← hval j hj]
    exact congrArg UInt32.toNat heq
  · exact initLoop_ok (fun _ => rfl) _ _

/-- Polls that never may take more frames than the ring has buffers never fail the assertion, and
    any other poll can fail it. -/
theorem rxRun_bug_iff (c : Compatible) (skb : SkbCfg) (rxPending : Nat) :
    (∀ s, Reachable (RxInit (c.rxCfg skb rxPending))
        (RxStep (c.rxCfg skb rxPending) (PollOk (c.rxCfg skb rxPending))) s → s.phase ≠ .bug) ∧
    ∀ s limit, Reachable (RxInit (c.rxCfg skb rxPending))
        (RxStep (c.rxCfg skb rxPending) AnyPoll) s → s.phase = .idle →
      ¬PollOk (c.rxCfg skb rxPending) s limit →
      ∃ s', Relation.ReflTransGen (RxStep (c.rxCfg skb rxPending) AnyPoll)
        { s with phase := .recv limit 0 } s' ∧ s'.phase = .bug := by
  have horder := rxCfg_order_le c skb rxPending
  have hmask := rxCfg_mask c skb rxPending
  constructor
  · intro s hs
    have hinv : ∃ d cu h, RxInv (c.rxCfg skb rxPending) s d cu h ∧
        Budget (c.rxCfg skb rxPending) s d cu := by
      apply hs.invariant (p := fun s => ∃ d cu h, RxInv (c.rxCfg skb rxPending) s d cu h ∧
        Budget (c.rxCfg skb rxPending) s d cu)
      · intro s hinit
        refine ⟨0, 0, 0, RxInv.init horder hinit, ?_⟩
        rw [Budget, hinit.2.1]
        trivial
      · rintro s s' ⟨d, cu, h, hs, hb⟩ hstep
        exact hb.step hmask hs hstep
    obtain ⟨d, cu, h, -, hb⟩ := hinv
    intro hbug
    rw [Budget, hbug] at hb
    exact hb
  -- a poll of more than the ring holds finds it full
  · intro s limit hs _ hlimit
    obtain ⟨d, cu, h, hinv⟩ := run_rxInv horder hmask hs
    exact hinv.exists_bug hmask (ethFcsLen_le_mask c skb rxPending) hlimit

/-- `ethtool -G eth0 rx 1` on an AR9330, and a poll with the weight of the driver -/
theorem rxRun_bug_ar9330 :
    ∃ s, Reachable (RxInit (Compatible.ar9330.rxCfg .line32 1))
      (RxStep (Compatible.ar9330.rxCfg .line32 1) AnyPoll) s ∧ s.phase = .bug := by
  have hsize : (Compatible.ar9330.rxCfg .line32 1).ringSize = 1 := by decide
  have horder := rxCfg_order_le .ar9330 .line32 1
  have hstart : Reachable (RxInit (Compatible.ar9330.rxCfg .line32 1))
      (RxStep (Compatible.ar9330.rxCfg .line32 1) AnyPoll)
      (RxSys.fresh (Compatible.ar9330.rxCfg .line32 1)) := .start (rxInit_fresh horder)
  have hinv := RxInv.init horder (rxInit_fresh horder)
  -- one slot, and a poll of 32 frames
  have hlimit : ¬PollOk (Compatible.ar9330.rxCfg .line32 1)
      (RxSys.fresh (Compatible.ar9330.rxCfg .line32 1)) 32 := by
    rw [hinv.pollOk_iff, hsize]
    omega
  obtain ⟨s, hrun, hbug⟩ := hinv.exists_bug (rxCfg_mask _ _ _) (ethFcsLen_le_mask _ _ _) hlimit
  obtain ⟨s0, hinit, hrun0⟩ := hstart.next (.poll _ 32 rfl trivial)
  exact ⟨s, ⟨s0, hinit, hrun0.trans hrun⟩, hbug⟩

/-- Every frame that the hardware completes is taken once and in order, and handed up at the end of its
    poll if `build_skb` succeeds; its buffer is freed if not. A poll ends, and below its limit it
    leaves no completed frame. -/
theorem rxRun_good (c : Compatible) (skb : SkbCfg) (rxPending : Nat) {s : RxSys}
    (hs : Reachable (RxInit (c.rxCfg skb rxPending)) (RxStep (c.rxCfg skb rxPending) AnyPoll) s) :
    RxGood (c.rxCfg skb rxPending) s ∧ RxProgress (c.rxCfg skb rxPending) s := by
  obtain ⟨d, cu, h, hinv⟩ :=
    run_rxInv (rxCfg_order_le c skb rxPending) (rxCfg_mask c skb rxPending) hs
  exact ⟨hinv.good (run_delivered hs), hinv.progress⟩

/-- `ethtool -G eth0 rx 4` on an AR9330 -/
def fourRx : RxCfg := Compatible.ar9330.rxCfg .line32 4

/-- A frame of 60 bytes and its checksum. -/
def sampleRx (b : UInt8) : List UInt8 := List.replicate 64 b

/-- Three frames have arrived. -/
def threeArrived : RxSys :=
  (((RxSys.fresh fourRx).complete fourRx (sampleRx 1)).complete fourRx (sampleRx 2)).complete fourRx
    (sampleRx 3)

/-- A poll takes them; `build_skb` fails for the second. -/
def threeTaken : RxSys :=
  let s : RxSys := { threeArrived with phase := .recv 32 0, rxList := [] }
  ((s.recv fourRx 32 0 true).recv fourRx 32 1 false).recv fourRx 32 2 true

/-- Two of the descriptors get a new buffer, then an allocation fails. -/
def threeRefilled : RxSys :=
  (((threeTaken.recv fourRx 32 3 true).refill fourRx (some ⟨11, 11⟩)).refill fourRx
    (some ⟨12, 12⟩)).refill fourRx none

/-- The first and the third frame are handed up, and the buffer of the second is freed. -/
theorem rxRun_good_ar9330 :
    (RxGood fourRx threeRefilled.deliver ∧ RxProgress fourRx threeRefilled.deliver) ∧
      threeRefilled.deliver.handedUp = [List.replicate 60 1, List.replicate 60 3] ∧
      threeRefilled.deliver.freed = [some 2] := by
  have hstart : Reachable (RxInit fourRx) (RxStep fourRx AnyPoll) (RxSys.fresh fourRx) :=
    .start (rxInit_fresh (rxCfg_order_le .ar9330 .line32 4))
  -- three frames arrive
  have harrived : Reachable (RxInit fourRx) (RxStep fourRx AnyPoll) threeArrived :=
    ((hstart.next (.complete _ _ (by rfl) (by decide) (by decide))).next
      (.complete _ _ (by rfl) (by decide) (by decide))).next
      (.complete _ _ (by rfl) (by decide) (by decide))
  -- the poll builds the first and the third, and ends at the empty ring
  have htaken : Reachable (RxInit fourRx) (RxStep fourRx AnyPoll) threeTaken :=
    (((harrived.next (.poll _ 32 (by rfl) trivial)).next (.recv _ 32 0 true (by rfl))).next
      (.recv _ 32 1 false (by rfl))).next (.recv _ 32 2 true (by rfl))
  -- two buffers come, the third allocation fails
  have hrefilled : Reachable (RxInit fourRx) (RxStep fourRx AnyPoll) threeRefilled :=
    (((htaken.next (.recv _ 32 3 true (by rfl))).next
      (.refill _ (some ⟨11, 11⟩) (by rfl) fun d hd => by cases hd; rfl)).next
      (.refill _ (some ⟨12, 12⟩) (by rfl) fun d hd => by cases hd; rfl)).next
      (.refill _ none (by rfl) nofun)
  exact ⟨rxRun_good .ar9330 .line32 4 (hrefilled.next (.deliver _ (by rfl))), by rfl, by rfl⟩

end HandsomeMod.Native.Ag71xx
