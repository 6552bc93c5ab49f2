import HandsomeMod.Native.Rtl838xRx

/-!
# Slots of the receive rings

Addresses and ring words: the words that the driver writes when it hands a slot back are those of
the setup, and the buffers of the slots do not overlap.
-/

namespace HandsomeMod.Native.Rtl838x.Rx

open HandsomeMod.ForStd

variable {g : Cfg} {p : Priv}

/-! ### Addresses -/

/-- The address in the uncached segment. -/
private theorem toNat_kseg1addr (a : U32) : (kseg1addr a).toNat = 0xa0000000 + a.toNat % 2 ^ 29
    := by
  have hmod : a.toNat % 2 ^ 29 < 2 ^ 29 := Nat.mod_lt _ (by decide)
  unfold kseg1addr
  rw [BitVec.toNat_or, BitVec.toNat_and]
  change (a.toNat &&& 2 ^ 29 - 1) ||| 2 ^ 29 * 5 = _
  rw [Nat.and_two_pow_sub_one_eq_mod, Nat.or_comm, ← Nat.two_pow_add_eq_or_of_lt hmod]

/-- The address of an uncached address is itself. -/
private theorem kseg1addr_kseg1addr (a : U32) : kseg1addr (kseg1addr a) = kseg1addr a := by
  apply BitVec.eq_of_toNat_eq
  rw [toNat_kseg1addr (kseg1addr a), toNat_kseg1addr a]
  omega

/-- Buffers are in the uncached segment. -/
private theorem kseg1addr_bufAddr (g : Cfg) (r j : Nat) : kseg1addr (g.bufAddr r j) = g.bufAddr r j
    :=
  kseg1addr_kseg1addr _

/-- The number of a slot, counted over all rings. -/
def Cfg.slot (g : Cfg) (r j : Nat) : Nat := r * g.rxringlen + j

/-- A slot of a ring is a slot of the space. -/
theorem Cfg.slot_lt {r j : Nat} (hr : r < g.rxrings) (hj : j < g.rxringlen) :
    g.slot r j < g.rxrings * g.rxringlen := by
  unfold Cfg.slot
  calc r * g.rxringlen + j < r * g.rxringlen + g.rxringlen := Nat.add_lt_add_left hj _
    _ = (r + 1) * g.rxringlen := (Nat.succ_mul r g.rxringlen).symm
    _ ≤ g.rxrings * g.rxringlen := Nat.mul_le_mul_right _ hr

/-- Different slots have different places. -/
theorem Cfg.slot_inj {r j r' j' : Nat} (hj : j < g.rxringlen) (hj' : j' < g.rxringlen)
    (h : g.slot r j = g.slot r' j') : r = r' ∧ j = j' := by
  unfold Cfg.slot at h
  have hr : r = r' := by
    have hdiv := congrArg (fun x => x / g.rxringlen) h
    simpa only [Nat.mul_comm _ g.rxringlen, Nat.mul_add_div g.rxringlen_pos,
      Nat.div_eq_of_lt hj, Nat.div_eq_of_lt hj', Nat.add_zero] using hdiv
  subst hr
  exact ⟨rfl, Nat.add_left_cancel h⟩

/-- The address of a buffer, without wrapping around. -/
private theorem toNat_bufAddr {r j : Nat} (hr : r < g.rxrings) (hj : j < g.rxringlen) :
    (g.bufAddr r j).toNat =
      0xa0000000 + (g.rxSpace.toNat % 2 ^ 29 + g.slot r j * ringBuffer) := by
  have hslot : r * g.rxringlen * ringBuffer + j * ringBuffer = g.slot r j * ringBuffer :=
    (Nat.add_mul _ _ _).symm
  have hlt : g.slot r j * ringBuffer < g.rxrings * g.rxringlen * ringBuffer :=
    Nat.mul_lt_mul_of_pos_right (Cfg.slot_lt hr hj) (by decide)
  have hfits := g.fits
  unfold Cfg.bufAddr
  rw [toNat_kseg1addr, hslot, BitVec.toNat_add, BitVec.toNat_ofNat]
  omega

/-- The buffers of two slots do not overlap. -/
private theorem bufAddr_apart {r j r' j' : Nat} (hr : r < g.rxrings) (hj : j < g.rxringlen)
    (hr' : r' < g.rxrings) (hj' : j' < g.rxringlen) (hne : ¬(r = r' ∧ j = j')) :
    (g.bufAddr r j).toNat + ringBuffer ≤ (g.bufAddr r' j').toNat ∨
      (g.bufAddr r' j').toNat + ringBuffer ≤ (g.bufAddr r j).toNat := by
  rw [toNat_bufAddr hr hj, toNat_bufAddr hr' hj']
  have hstep : ∀ a b : Nat, a < b → a * ringBuffer + ringBuffer ≤ b * ringBuffer := by
    intro a b hab
    rw [← Nat.succ_mul]
    exact Nat.mul_le_mul_right _ hab
  obtain hlt | heq | hgt := lt_trichotomy (g.slot r j) (g.slot r' j')
  · have := hstep _ _ hlt
    omega
  · exact absurd (Cfg.slot_inj hj hj' heq) hne
  · have := hstep _ _ hgt
    omega

/-- A write to one buffer, seen from another. -/
theorem bytesAt_bufAddr_write {r j r' j' n : Nat} (hr : r < g.rxrings) (hj : j < g.rxringlen)
    (hr' : r' < g.rxrings) (hj' : j' < g.rxringlen) (hne : ¬(r = r' ∧ j = j')) (m : Mem)
    {bytes : List UInt8} (hbytes : bytes.length ≤ ringBuffer) (hn : n ≤ ringBuffer) :
    bytesAt (writeBytes m (g.bufAddr r' j').toNat bytes) (g.bufAddr r j).toNat n =
      bytesAt m (g.bufAddr r j).toNat n := by
  obtain hbefore | hafter := bufAddr_apart hr hj hr' hj' hne
  · apply bytesAt_congr
    intro i hi
    exact writeBytes_of_lt bytes (by omega)
  · apply bytesAt_congr
    intro i hi
    exact writeBytes_of_le bytes (by omega)

/-! ### Ring words -/

/-- The word of a slot that the switch owns. -/
def Cfg.word (g : Cfg) (r j : Nat) : U32 :=
  kseg1addr (g.hdrAddr r j) ||| 1#32 ||| (if j = g.rxringlen - 1 then wrap else 0#32)

/-- A slot is given back as it was set up. -/
theorem rearmWord_eq (g : Cfg) (r j : Nat) : g.rearmWord r j = g.word r j := by
  unfold Cfg.rearmWord Cfg.word
  split
  · rfl
  · rw [BitVec.or_assoc, BitVec.or_self, BitVec.or_zero]

/-- A slot that was set up belongs to the switch. -/
theorem word_and_one (g : Cfg) (r j : Nat) : g.word r j &&& 1#32 ≠ 0#32 := by
  intro h
  have h0 := congrArg (fun x => BitVec.getLsbD x 0) h
  simp [Cfg.word] at h0

/-- Header addresses leave the bit of `WRAP` to the driver. -/
private theorem getLsbD_hdrAddr_one (g : Cfg) (r j : Nat) :
    (kseg1addr (g.hdrAddr r j)).getLsbD 1 = false := by
  have haligned := g.aligned
  have hnat : (kseg1addr (g.hdrAddr r j)).toNat % 4 = 0 := by
    rw [toNat_kseg1addr]
    unfold Cfg.hdrAddr
    rw [BitVec.toNat_add, BitVec.toNat_ofNat]
    omega
  unfold BitVec.getLsbD
  rw [Nat.testBit_eq_decide_div_mod_eq, decide_eq_false_iff_not]
  omega

/-- The `WRAP` bit marks the last slot. -/
theorem word_and_wrap (g : Cfg) (r j : Nat) :
    g.word r j &&& wrap ≠ 0#32 ↔ j = g.rxringlen - 1 := by
  -- the header's address is aligned, so bit 1 is the wrap bit alone
  have hbit : (g.word r j).getLsbD 1 = decide (j = g.rxringlen - 1) := by
    unfold Cfg.word
    rw [BitVec.getLsbD_or, BitVec.getLsbD_or, getLsbD_hdrAddr_one]
    by_cases hj : j = g.rxringlen - 1
    · simp [hj, wrap]
    · simp [hj]
  have hwrap : ∀ k < 32, wrap.getLsbD k = decide (k = 1) := by
    intro k hk
    interval_cases k <;> rfl
  constructor
  · intro hne
    by_contra hj
    apply hne
    apply BitVec.eq_of_getLsbD_eq
    intro k hk
    rw [BitVec.getLsbD_and, hwrap k hk, BitVec.getLsbD_zero]
    by_cases hk1 : k = 1
    · rw [hk1, hbit, decide_eq_false hj, Bool.false_and]
    · simp [hk1]
  · intro hj hzero
    have h1 := congrArg (fun x => BitVec.getLsbD x 1) hzero
    rw [BitVec.getLsbD_and, hbit, hwrap 1 (by decide), BitVec.getLsbD_zero, decide_eq_true hj] at h1
    cases h1

/-! ### Frames -/

/-- A frame that the switch receives, with its CRC, and the tag that it adds to the header. -/
structure Frame where
  bytes : List UInt8
  cpuTag : Fin 10 → U16
  four_le : 4 ≤ bytes.length
  le_ringBuffer : bytes.length ≤ ringBuffer

/-- The header of a slot that has a frame. -/
def Frame.header (f : Frame) (buf : U32) : PHdr :=
  { resetHeader buf with len := BitVec.ofNat 16 f.bytes.length, cpuTag := f.cpuTag }

/-- The trailer for the switch driver. -/
def trailer (tag : DsaTag) : List UInt8 :=
  [0x80, UInt8.ofNat tag.port.toNat ||| (if tag.l2Offloaded then 0x40 else 0), 0x10, 0x00]

/-- What the network stack gets: the frame without its CRC, or with the trailer in its place. -/
def Frame.passedUp (f : Frame) (family : Family) (dsa : Bool) : List UInt8 :=
  f.bytes.take (f.bytes.length - 4) ++ if dsa then trailer (family.decodeTag f.cpuTag) else []

/-- The length of a frame fits its field. -/
private theorem toNat_len_header (f : Frame) (buf : U32) : (f.header buf).len.toNat = f.bytes.length
    := by
  have hle := f.le_ringBuffer
  unfold ringBuffer at hle
  unfold Frame.header
  rw [BitVec.toNat_ofNat]
  omega

/-- The tag replaces the last four bytes. -/
private theorem writeTag_append (tag : DsaTag) (l : List UInt8) (a b c d : UInt8) :
    writeTag tag (l ++ [a, b, c, d]) = l ++ trailer tag := by
  -- the last four bytes are set where they are
  have hset : ∀ (k : Nat) (x : UInt8) (l' : List UInt8), (l ++ l').set (l.length + k) x =
      l ++ l'.set k x := by
    intro k x l'
    rw [List.set_append_right _ _ (Nat.le_add_right _ _), Nat.add_sub_cancel_left]
  have h4 : (l ++ [a, b, c, d]).length - 4 = l.length + 0 := by simp
  have h3 : (l ++ [a, b, c, d]).length - 3 = l.length + 1 := by simp
  have h2 : (l ++ [a, b, c, d]).length - 2 = l.length + 2 := by simp
  have h1 : (l ++ [a, b, c, d]).length - 1 = l.length + 3 := by simp
  unfold writeTag trailer
  dsimp only
  rw [h4, h3, h2, h1, hset, hset, hset, hset]
  cases tag.l2Offloaded with
  | false => simp
  | true =>
    rw [if_pos rfl, hset]
    simp

/-- The tag takes the last four bytes. -/
private theorem writeTag_eq (tag : DsaTag) {l : List UInt8} (h : 4 ≤ l.length) :
    writeTag tag l = l.take (l.length - 4) ++ trailer tag := by
  have hlen : (l.drop (l.length - 4)).length = 4 := by
    rw [List.length_drop]
    omega
  obtain ⟨a, b, c, d, heq⟩ : ∃ a b c d, l.drop (l.length - 4) = [a, b, c, d] :=
    List.length_eq_four.mp hlen
  conv_lhs => rw [← List.take_append_drop (l.length - 4) l, heq]
  exact writeTag_append tag _ a b c d

/-! ### Turns -/

/-- A turn at a slot that the switch owns. -/
theorem receiveTurn_owned {r : Nat} (h : p.Owned r (p.cRx r)) (dsa alloc : Bool) :
    receiveTurn g p r dsa alloc = .stop := by
  unfold receiveTurn
  rw [if_pos h]

/-- A turn at a slot that has a frame. -/
theorem receiveTurn_frame {r : Nat} {f : Frame} (hnot : ¬p.Owned r (p.cRx r))
    (hheader : p.rxHeader r (p.cRx r) = f.header (g.bufAddr r (p.cRx r)))
    (hbytes : bytesAt p.mem (g.bufAddr r (p.cRx r)).toNat f.bytes.length = f.bytes)
    (dsa alloc : Bool) :
    receiveTurn g p r dsa alloc =
      if alloc then
        .took { rearm g p r (g.bufAddr r (p.cRx r)) with
          rxPackets := p.rxPackets + 1
          rxBytes := p.rxBytes + (f.passedUp g.family dsa).length }
          (some (f.passedUp g.family dsa))
      else .oops := by
  have hfour := f.four_le
  have hbuf : kseg1addr (f.header (g.bufAddr r (p.cRx r))).buf = g.bufAddr r (p.cRx r) :=
    kseg1addr_bufAddr g r _
  have hlen := toNat_len_header f (g.bufAddr r (p.cRx r))
  -- a frame has four bytes at least, so its length is not zero
  have hne : (f.header (g.bufAddr r (p.cRx r))).len ≠ 0#16 := by
    intro hzero
    rw [hzero] at hlen
    simp at hlen
    omega
  unfold receiveTurn
  rw [if_neg hnot]
  dsimp only
  rw [hheader, hbuf, if_neg hne, hlen, kseg1addr_bufAddr]
  cases alloc with
  | false => rfl
  | true =>
    -- the buffer has room for the alignment and the data
    have hput : ∀ (n : Nat) (l : List UInt8), l.length = n →
        skbPut { size := n + 4, headroom := 0 + netIpAlign, data := [] } l = some
          { size := n + 4, headroom := 0 + netIpAlign, data := l } := by
      intro n l hl
      unfold skbPut netIpAlign
      rw [if_pos]
      · rfl
      · dsimp only [List.length_nil]
        omega
    unfold Frame.passedUp
    cases dsa with
    | false =>
      have hdata := bytesAt_take hbytes (n := f.bytes.length - 4) (by omega)
      have hshort : (f.bytes.take (f.bytes.length - 4)).length = f.bytes.length - 4 := by
        rw [List.length_take]
        omega
      simp only [allocSkb, skbReserve, hdata, if_true, Bool.false_eq_true, if_false,
        hput _ _ hshort, List.append_nil, hshort]
    | true =>
      have hlen4 : f.bytes.length - 4 + 4 = f.bytes.length := by omega
      have htrailer : (trailer (g.family.decodeTag f.cpuTag)).length = 4 := rfl
      have htag : (f.header (g.bufAddr r (p.cRx r))).cpuTag = f.cpuTag := rfl
      have hshort : (f.bytes.take (f.bytes.length - 4)).length = f.bytes.length - 4 := by
        rw [List.length_take]
        omega
      simp only [allocSkb, skbReserve, hlen4, hbytes, if_true, hput _ _ rfl, htag,
        writeTag_eq _ hfour, List.length_append, hshort, htrailer]

/-- A turn of the cleanup. -/
theorem cleanupTurn_eq (g : Cfg) (p : Priv) (r : Nat) :
    cleanupTurn g p r =
      if p.Owned r (p.cRx r) then none else some (rearm g p r (g.bufAddr r (p.cRx r))) := rfl

end HandsomeMod.Native.Rtl838x.Rx
