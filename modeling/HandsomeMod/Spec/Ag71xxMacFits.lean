import HandsomeMod.ForStd.Run
import HandsomeMod.Native.Ag71xx

/-!
# Received frames fit the buffers

The size of the receive buffers is set when the device is opened, the maximum frame length also when
the MTU changes. Frames fit as long as no MTU is set on an open device that is too large for its
buffers.
-/

namespace HandsomeMod.Native.Ag71xx

open ForStd

/-- One step of the device; the MTU changes are those that `ok` allows. The restart work of a device
    that is not open waits in `napi_disable`. -/
inductive MacStep (c : Compatible) (skb : SkbCfg) (ok : Mac → Nat → Prop) : Mac → Mac → Prop where
  | open (s : Mac) (n : Nat) (done : Bool) (hrun : s.running = false) :
      MacStep c skb ok s (s.open skb n done)
  | stop (s : Mac) (hrun : s.running = true) : MacStep c skb ok s (s.stop c)
  | changeMtu (s : Mac) (newMtu : Nat) (hmin : minMtu ≤ newMtu) (hmax : newMtu ≤ c.maxMtu)
      (hok : ok s newMtu) : MacStep c skb ok s (s.changeMtu newMtu)
  | phyLinkAdjust (s : Mac) (link changed : Bool) (hrun : s.running = true) :
      MacStep c skb ok s (s.phyLinkAdjust c link changed)
  | restart (s : Mac) (n : Nat) (hrun : s.running = true) : MacStep c skb ok s (s.restart c n)
  | poll (s : Mac) (taken filled : Nat) (overflow : Bool) (hrun : s.running = true) :
      MacStep c skb ok s (s.poll taken filled overflow)

/-- After `ag71xx_probe`. -/
def MacInit (s : Mac) : Prop :=
  s.mtu = 1500 ∧ s.mfl = 0 ∧ s.rxe = false ∧ s.link = false ∧ s.running = false ∧ s.bufs = []

/-- When the receive engine is enabled, a frame fits every buffer on the ring. -/
def RxFits (c : Compatible) (skb : SkbCfg) (s : Mac) : Prop :=
  s.rxe = true → ∀ b ∈ s.bufs, s.mfl + c.rxBufOffset skb ≤ b

def AnyMtu (_ : Mac) (_ : Nat) : Prop := True

/-- The MTU of an open device is not raised above what its buffers were allocated for. -/
def MtuOk (c : Compatible) (skb : SkbCfg) (s : Mac) (newMtu : Nat) : Prop :=
  s.running = true → maxFrameLen newMtu + c.rxBufOffset skb ≤ s.rxBufSize

variable {c : Compatible} {skb : SkbCfg} {s s' : Mac} {ok : Mac → Nat → Prop}

/-- `SKB_DATA_ALIGN` does not go below the size. -/
theorem SkbCfg.le_dataAlign (skb : SkbCfg) (n : Nat) : n ≤ skb.dataAlign n := by
  have hpos := skb.cacheBytes_pos
  have hmod := Nat.mod_lt (n + (skb.smpCacheBytes - 1)) hpos
  have hdiv := Nat.div_add_mod' (n + (skb.smpCacheBytes - 1)) skb.smpCacheBytes
  rw [SkbCfg.dataAlign]
  omega

/-- The offset of the data in a buffer is bounded by the padding. -/
private theorem rxBufOffset_le (c : Compatible) (skb : SkbCfg) :
    c.rxBufOffset skb ≤ skb.netSkbPad + skb.netIpAlign := by
  cases c <;> simp [Compatible.rxBufOffset]

/-- The buffers are those of the last opening, and large enough for the MTU. -/
structure MacInv (c : Compatible) (skb : SkbCfg) (s : Mac) : Prop where
  bufs_eq : ∀ b ∈ s.bufs, b = s.rxBufSize
  mfl_le : s.mfl ≤ maxFrameLen s.mtu
  enabled : s.rxe = true → s.running = true
  fits : s.running = true → maxFrameLen s.mtu + c.rxBufOffset skb ≤ s.rxBufSize

namespace MacInv

/-- The invariant says that frames fit the buffers of a running device. -/
theorem rxFits (hs : MacInv c skb s) : RxFits c skb s := by
  intro hrxe b hb
  have hle := hs.mfl_le
  have hfits := hs.fits (hs.enabled hrxe)
  rw [hs.bufs_eq b hb]
  omega

/-- The state after the probe meets the invariant. -/
theorem init (hs : MacInit s) : MacInv c skb s := by
  obtain ⟨-, hmfl, hrxe, -, hrun, hbufs⟩ := hs
  constructor
  · rw [hbufs]
    exact fun b hb => absurd hb List.not_mem_nil
  · rw [hmfl]
    exact Nat.zero_le _
  · rw [hrxe]
    exact fun h => by cases h
  · rw [hrun]
    exact fun h => by cases h

/-- Stopping the engines keeps the invariant. -/
private theorem hwStop (hs : MacInv c skb s) : MacInv c skb s.hwStop :=
  ⟨hs.bufs_eq, hs.mfl_le, fun h => absurd h Bool.false_ne_true, hs.fits⟩

/-- Starting the engines keeps the invariant. -/
private theorem hwStart (hs : MacInv c skb s) (hrun : s.running = true) : MacInv c skb s.hwStart :=
  ⟨hs.bufs_eq, hs.mfl_le, fun _ => hrun, hs.fits⟩

/-- A fast reset keeps the invariant. -/
private theorem fastReset (hs : MacInv c skb s) : MacInv c skb s.fastReset :=
  ⟨hs.bufs_eq, Nat.le_refl _, fun h => absurd h Bool.false_ne_true, hs.fits⟩

/-- The state of the link is not part of the invariant. -/
private theorem setLink (hs : MacInv c skb s) (link : Bool) : MacInv c skb { s with link := link }
    :=
  ⟨hs.bufs_eq, hs.mfl_le, hs.enabled, hs.fits⟩

/-- `ag71xx_link_adjust` sets the frame length that the buffers are for. -/
private theorem linkAdjust (hs : MacInv c skb s) (hrun : s.running = true) (update : Bool) :
    MacInv c skb (s.linkAdjust c update) := by
  rw [Mac.linkAdjust]
  split
  · exact hs.hwStop
  · split
    · exact hs.fastReset.hwStart hrun
    · exact hs.hwStart hrun

/-- New buffers have the size of the last opening. -/
private theorem hwEnable (hs : MacInv c skb s) (n : Nat) : MacInv c skb (s.hwEnable n) :=
  ⟨fun _ hb => List.eq_of_mem_replicate hb, hs.mfl_le, hs.enabled, hs.fits⟩

/-- Disabling the device keeps the invariant. -/
private theorem hwDisable (hs : MacInv c skb s) : MacInv c skb s.hwDisable :=
  ⟨fun _ hb => absurd hb List.not_mem_nil, hs.mfl_le, fun h => absurd h Bool.false_ne_true, hs.fits⟩

/-- `ag71xx_open` computes buffer size and frame length from one MTU. -/
theorem «open» (hs : MacInv c skb s) (hrun : s.running = false) (n : Nat) (done : Bool) :
    MacInv c skb (s.open skb n done) := by
  have hoffset := rxBufOffset_le c skb
  have halign := skb.le_dataAlign (maxFrameLen s.mtu + skb.netSkbPad + skb.netIpAlign)
  -- the buffer has room for the frame at its offset
  have hfits : maxFrameLen s.mtu + c.rxBufOffset skb ≤
      skb.dataAlign (maxFrameLen s.mtu + skb.netSkbPad + skb.netIpAlign) := by
    omega
  -- the receiver of a closed device is off
  have hoff : s.rxe = true → False := by
    intro hrxe
    rw [hs.enabled hrxe] at hrun
    cases hrun
  rw [Mac.open]
  split
  · exact ⟨fun _ hb => List.eq_of_mem_replicate hb, Nat.le_refl _, fun _ => rfl, fun _ => hfits⟩
  · exact ⟨fun _ hb => absurd hb List.not_mem_nil, Nat.le_refl _, fun h => absurd h hoff,
      fun _ => hfits⟩

/-- `ag71xx_stop` leaves a stopped device. -/
private theorem stop (hs : MacInv c skb s) (hrun : s.running = true) : MacInv c skb (s.stop c) := by
  have hadjust : MacInv c skb (if s.link then Mac.linkAdjust c { s with link := false } true else s) := by
    split
    · exact (hs.setLink false).linkAdjust hrun true
    · exact hs
  rw [Mac.stop]
  exact ⟨fun _ hb => absurd hb List.not_mem_nil, hadjust.mfl_le,
    fun h => absurd h Bool.false_ne_true, fun h => absurd h Bool.false_ne_true⟩

/-- A change of the MTU that is allowed keeps the invariant. -/
private theorem changeMtu (hs : MacInv c skb s) {newMtu : Nat} (hok : MtuOk c skb s newMtu) :
    MacInv c skb (s.changeMtu newMtu) :=
  ⟨hs.bufs_eq, Nat.le_refl _, hs.enabled, hok⟩

/-- A change of the link as the PHY reports it keeps the invariant. -/
private theorem phyLinkAdjust (hs : MacInv c skb s) (hrun : s.running = true) (link changed : Bool)
    :
    MacInv c skb (s.phyLinkAdjust c link changed) := by
  rw [Mac.phyLinkAdjust]
  split
  · exact (hs.setLink link).linkAdjust hrun true
  · exact hs.setLink link

/-- The restart work keeps the invariant. -/
private theorem restart (hs : MacInv c skb s) (hrun : s.running = true) (n : Nat) :
    MacInv c skb (s.restart c n) := by
  rw [Mac.restart]
  split
  · exact (hs.hwDisable.hwEnable n).linkAdjust hrun false
  · exact hs.hwDisable.hwEnable n

/-- A poll keeps the invariant, also if the receive engine is started again. -/
private theorem poll (hs : MacInv c skb s) (hrun : s.running = true) (taken filled : Nat)
    (overflow : Bool) : MacInv c skb (s.poll taken filled overflow) := by
  have hbufs : ∀ b ∈ s.bufs.drop taken ++ List.replicate filled s.rxBufSize, b = s.rxBufSize := by
    intro b hb
    obtain hold | hnew := List.mem_append.mp hb
    · exact hs.bufs_eq b (List.mem_of_mem_drop hold)
    · exact List.eq_of_mem_replicate hnew
  rw [Mac.poll]
  split
  · exact ⟨hbufs, hs.mfl_le, fun _ => hrun, hs.fits⟩
  · exact ⟨hbufs, hs.mfl_le, hs.enabled, hs.fits⟩

/-- Every step with allowed changes of the MTU keeps the invariant. -/
theorem step (hs : MacInv c skb s) (hstep : MacStep c skb (MtuOk c skb) s s') :
    MacInv c skb s' := by
  cases hstep with
  | «open» n done hrun => exact hs.open hrun n done
  | stop hrun => exact hs.stop hrun
  | changeMtu newMtu hmin hmax hok => exact hs.changeMtu hok
  | phyLinkAdjust link changed hrun => exact hs.phyLinkAdjust hrun link changed
  | restart n hrun => exact hs.restart hrun n
  | poll taken filled overflow hrun => exact hs.poll hrun taken filled overflow

end MacInv

/-! ### A large MTU on an open device -/

/-- With the link up, the engine is enabled with the frame length of the MTU. -/
private theorem linkAdjust_up (hlink : s.link = true) (hmfl : s.mfl = maxFrameLen s.mtu)
    (update : Bool) :
    (s.linkAdjust c update).rxe = true ∧ (s.linkAdjust c update).mfl = maxFrameLen s.mtu ∧
    (s.linkAdjust c update).bufs = s.bufs := by
  rw [Mac.linkAdjust, hlink]
  simp only [Bool.not_true, Bool.false_and, Bool.false_eq_true, if_false]
  split
  · exact ⟨rfl, rfl, rfl⟩
  · exact ⟨rfl, hmfl, rfl⟩

/-- After an MTU that is too large for the buffers, a restart and a link change let in frames that
    are too large. -/
theorem exists_overrun (hrun : s.running = true) {newMtu : Nat} (hmtu : ¬MtuOk c skb s newMtu) :
    ∃ s', Relation.ReflTransGen (MacStep c skb AnyMtu) (s.changeMtu newMtu) s' ∧
      ¬RxFits c skb s' := by
  have hlarge : ¬maxFrameLen newMtu + c.rxBufOffset skb ≤ s.rxBufSize := fun hle =>
    hmtu fun _ => hle
  -- the link comes up with the new size, and the restart starts the receiver again
  have hlink : MacStep c skb AnyMtu (s.changeMtu newMtu)
      ((s.changeMtu newMtu).phyLinkAdjust c true true) := .phyLinkAdjust _ true true hrun
  have hadjust : (s.changeMtu newMtu).phyLinkAdjust c true true =
      Mac.linkAdjust c { s.changeMtu newMtu with link := true } true := rfl
  generalize hs1 : (s.changeMtu newMtu).phyLinkAdjust c true true = s1 at *
  have hfields : s1.link = true ∧ s1.running = true ∧ s1.mfl = maxFrameLen s1.mtu ∧
      s1.mtu = newMtu ∧ s1.rxBufSize = s.rxBufSize := by
    rw [hadjust, Mac.linkAdjust]
    simp only [Bool.not_true, Bool.false_and, Bool.false_eq_true, if_false]
    split
    · exact ⟨rfl, hrun, rfl, rfl, rfl⟩
    · exact ⟨rfl, hrun, rfl, rfl, rfl⟩
  obtain ⟨hup, hrun1, hmfl1, hmtu1, hsize1⟩ := hfields
  have hrestart : s1.restart c 1 = Mac.linkAdjust c (s1.hwDisable.hwEnable 1) false := by
    show (if s1.link then _ else _) = _
    rw [hup]
    rfl
  -- the buffers are still those of the old size
  obtain ⟨hrxe, hmfl, hbufs⟩ := linkAdjust_up (c := c) (s := s1.hwDisable.hwEnable 1) hup hmfl1 false
  refine ⟨s1.restart c 1, .tail (.single hlink) (.restart s1 1 hrun1), ?_⟩
  rw [hrestart]
  intro hfits
  have hle := hfits hrxe s.rxBufSize (by
    rw [hbufs, ← hsize1]
    exact List.mem_singleton_self _)
  rw [hmfl] at hle
  have hmtu2 : (s1.hwDisable.hwEnable 1).mtu = newMtu := hmtu1
  rw [hmtu2] at hle
  exact hlarge hle

/-- Received frames fit the buffers in every run that sets no MTU on an open device that its buffers
    are too small for, and any such MTU can lead to a frame that does not fit. -/
theorem macRun_fits_iff (c : Compatible) (skb : SkbCfg) :
    (∀ s, Reachable MacInit (MacStep c skb (MtuOk c skb)) s → RxFits c skb s) ∧
    ∀ s newMtu, Reachable MacInit (MacStep c skb AnyMtu) s → s.running = true →
      ¬MtuOk c skb s newMtu →
      ∃ s', Relation.ReflTransGen (MacStep c skb AnyMtu) (s.changeMtu newMtu) s' ∧
        ¬RxFits c skb s' := by
  constructor
  · intro s hs
    have hinv := hs.invariant (p := MacInv c skb) (fun _ => MacInv.init) fun _ _ => MacInv.step
    exact hinv.rxFits
  · intro s newMtu _ hrun hmtu
    exact exists_overrun hrun hmtu

/-- After `ag71xx_probe`, and an opening that allocated 256 buffers -/
def Mac.opened : Mac :=
  Mac.open .line32 { mtu := 1500, mfl := 0, rxe := false, link := false, running := false,
                     rxBufSize := 0, bufs := [] } 256 true

/-- The MTU 9000 on an open AR9340 -/
theorem macRun_overrun_ar9340 :
    ∃ s, Reachable MacInit (MacStep .ar9340 .line32 AnyMtu) s ∧ ¬RxFits .ar9340 .line32 s := by
  have hopened : Reachable MacInit (MacStep .ar9340 .line32 AnyMtu) Mac.opened :=
    .next (.start ⟨rfl, rfl, rfl, rfl, rfl, rfl⟩) (.open _ 256 true rfl)
  have hlarge : ¬MtuOk .ar9340 .line32 Mac.opened 9000 := by
    intro hok
    have hle := hok rfl
    revert hle
    decide
  obtain ⟨s0, hinit, hrun0⟩ := hopened.next (.changeMtu _ 9000 (by decide) (by decide) trivial)
  obtain ⟨s, hrun, hover⟩ := exists_overrun rfl hlarge
  exact ⟨s, ⟨s0, hinit, hrun0.trans hrun⟩, hover⟩

end HandsomeMod.Native.Ag71xx
