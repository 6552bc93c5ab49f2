import HandsomeMod.Native.Ag71xx

/-!
# The receive ring holds a queue of frames

Positions count descriptors without wrapping. The driver has refilled the descriptors in front of
`d` and has taken the frames in front of `c`; the hardware has written the frames in front of `h`.
-/

namespace HandsomeMod.Native.Ag71xx

open ForStd

variable {g : RxCfg} {r : RxRing} {mem : UInt32 → List UInt8} {frames : Nat → List UInt8}
  {d c h : Nat}

/-- A buffer belongs to the descriptor, and the descriptor has its address. -/
structure RxOwned (g : RxCfg) (r : RxRing) (i : Nat) : Prop where
  rxBuf : ∃ b, (r.buf i).rxBuf = some b
  mapped : r.mapped (r.buf i).dmaAddr = true
  data : (r.desc i).data = (r.buf i).dmaAddr + g.rxBufOffset

/-- The ring and the memory of its buffers hold the frames from `c` to `h`. -/
structure RxRep (g : RxCfg) (r : RxRing) (mem : UInt32 → List UInt8) (frames : Nat → List UInt8)
    (d c h : Nat) : Prop where
  order_le : g.order ≤ 31
  dirty_eq : r.dirty = UInt32.ofNat d
  curr_eq : r.curr = UInt32.ofNat c
  le_curr : d ≤ c
  le_done : c ≤ h
  le_size : h ≤ d + g.ringSize
  taken : ∀ p, d ≤ p → p < c →
    (r.desc (p % g.ringSize)).empty = false ∧ (r.buf (p % g.ringSize)).rxBuf = none
  waiting : ∀ p, c ≤ p → p < h →
    (r.desc (p % g.ringSize)).empty = false ∧
    (r.desc (p % g.ringSize)).pktlen = (frames p).length ∧
    mem (r.desc (p % g.ringSize)).data = frames p
  ready : ∀ p, h ≤ p → p < d + g.ringSize → (r.desc (p % g.ringSize)).empty = true
  owned : ∀ p, c ≤ p → p < d + g.ringSize → RxOwned g r (p % g.ringSize)
  distinct : ∀ p q, c ≤ p → p < d + g.ringSize → c ≤ q → q < d + g.ringSize →
    (r.buf (p % g.ringSize)).dmaAddr = (r.buf (q % g.ringSize)).dmaAddr → p = q

section Rep

variable (hr : RxRep g r mem frames d c h)

include hr

/-- The slots of a ring are told apart by its counters. -/
theorem RxRep.ringSize_lt : g.ringSize ≤ 2 ^ 31 := Nat.pow_le_pow_right Nat.two_pos hr.order_le

/-- The slot that the driver looks at next. -/
theorem RxRep.slot_curr : Ring.slot g.order r.curr = c % g.ringSize := by
  have hle := hr.order_le
  rw [hr.curr_eq, Ring.slot_ofNat (by omega)]
  rfl

/-- The slot that gets the next buffer. -/
theorem RxRep.slot_dirty : Ring.slot g.order r.dirty = d % g.ringSize := by
  have hle := hr.order_le
  rw [hr.dirty_eq, Ring.slot_ofNat (by omega)]
  rfl

/-- The descriptors are empty from `h` on. -/
theorem RxRep.empty_iff {p : Nat} (hp : d ≤ p) (hp' : p < d + g.ringSize) :
    (r.desc (p % g.ringSize)).empty = true ↔ h ≤ p := by
  constructor
  · intro hempty
    by_contra hlt
    by_cases hc : p < c
    · rw [(hr.taken p hp hc).1] at hempty
      cases hempty
    · rw [(hr.waiting p (by omega) (by omega)).1] at hempty
      cases hempty
  · intro hh
    exact hr.ready p hh hp'

/-- The descriptor that the hardware uses next is empty if the ring has one. -/
theorem RxRep.next_empty_iff :
    (r.desc (h % g.ringSize)).empty = true ↔ h < d + g.ringSize := by
  have hle := hr.le_size
  have hdc := hr.le_curr
  have hch := hr.le_done
  have hpos : 0 < g.ringSize := Nat.two_pow_pos g.order
  constructor
  · intro hempty
    by_contra hfull
    -- the descriptor at `h` is the one at `d`
    have hmod : h % g.ringSize = d % g.ringSize := by
      rw [show h = d + g.ringSize by omega, Nat.add_mod_right]
    rw [hmod, hr.empty_iff (Nat.le_refl d) (by omega)] at hempty
    omega
  · intro hlt
    exact hr.ready h (Nat.le_refl h) hlt

/-- The descriptor that the driver looks at next is empty if every frame was taken and the ring has
    one that is. -/
theorem RxRep.curr_empty_iff :
    (r.desc (c % g.ringSize)).empty = true ↔ c = h ∧ h < d + g.ringSize := by
  have hch := hr.le_done
  constructor
  · intro hempty
    by_cases hlt : c < h
    · rw [(hr.waiting c (Nat.le_refl c) hlt).1] at hempty
      cases hempty
    · obtain rfl : c = h := by omega
      exact ⟨rfl, hr.next_empty_iff.mp hempty⟩
  · rintro ⟨rfl, hlt⟩
    exact hr.next_empty_iff.mpr hlt

/-- The test of the assertion: every buffer was taken. -/
theorem RxRep.full_iff : r.dirty + UInt32.ofNat g.ringSize = r.curr ↔ c = d + g.ringSize := by
  have hsize := hr.ringSize_lt
  have hle := hr.le_size
  have hch := hr.le_done
  rw [hr.dirty_eq, hr.curr_eq, ← UInt32.ofNat_add, eq_comm]
  have hdc := hr.le_curr
  constructor
  · intro heq
    have hinj := (Ring.ofNat_inj (d := c) (c := d + g.ringSize) (by omega) (by omega)).mp heq.symm
    exact hinj.symm
  · intro heq
    rw [heq]

end Rep

/-! ### The hardware -/

/-- The hardware writes a frame to the buffer of the next descriptor. -/
theorem RxRep.complete (hr : RxRep g r mem frames d c h) (hlt : h < d + g.ringSize)
    (f : List UInt8) :
    RxRep g (r.complete (h % g.ringSize) f.length)
      (Function.update mem (r.desc (h % g.ringSize)).data f) (Function.update frames h f)
      d c (h + 1) := by
  have hdc := hr.le_curr
  have hch := hr.le_done
  -- only the descriptor at `h` changes, and its address stays
  have hread : ∀ p, d ≤ p → p < d + g.ringSize →
      (r.complete (h % g.ringSize) f.length).desc (p % g.ringSize) =
        if p = h then { r.desc (h % g.ringSize) with pktlen := f.length, empty := false }
        else r.desc (p % g.ringSize) := fun p hp hp' =>
    Ring.update_mod r.desc _ (by omega) (by omega)
  have hdata : ∀ p, d ≤ p → p < d + g.ringSize →
      ((r.complete (h % g.ringSize) f.length).desc (p % g.ringSize)).data =
        (r.desc (p % g.ringSize)).data := by
    intro p hp hp'
    rw [hread p hp hp']
    split
    · rename_i heq
      rw [heq]
    · rfl
  constructor
  · exact hr.order_le
  · exact hr.dirty_eq
  · exact hr.curr_eq
  · exact hdc
  · omega
  · omega
  · intro p hp hp'
    -- taken: before `h`
    rw [hread p hp (by omega), if_neg (by omega)]
    exact hr.taken p hp hp'
  · intro p hp hp'
    -- waiting: the new frame is at `h`
    rw [hdata p (by omega) (by omega), hread p (by omega) (by omega)]
    by_cases hph : p = h
    · rw [if_pos hph, hph, Function.update_self, Function.update_self]
      exact ⟨rfl, rfl, rfl⟩
    · -- the frames that were there are in other buffers
      rw [if_neg hph, Function.update_of_ne hph, Function.update_of_ne]
      · exact hr.waiting p hp (by omega)
      · intro heq
        rw [(hr.owned p hp (by omega)).data, (hr.owned h hch hlt).data] at heq
        exact hph (hr.distinct p h hp (by omega) hch hlt ((UInt32.add_left_inj _).mp heq))
  · intro p hp hp'
    -- ready: behind `h`
    rw [hread p (by omega) hp', if_neg (by omega)]
    exact hr.ready p (by omega) hp'
  · intro p hp hp'
    -- owned: no buffer moves
    obtain ⟨hbuf, hmapped, hown⟩ := hr.owned p hp hp'
    refine ⟨hbuf, hmapped, ?_⟩
    rw [hdata p (by omega) hp']
    exact hown
  · exact hr.distinct

/-! ### The driver -/

/-- The driver takes the next frame. -/
theorem RxRep.take (hr : RxRep g r mem frames d c h) (hlt : c < h) :
    RxRep g (r.take (c % g.ringSize)) mem frames d (c + 1) h := by
  have hdc := hr.le_curr
  have hle := hr.le_size
  -- only the buffer at `c` goes
  have hread : ∀ p, d ≤ p → p < d + g.ringSize →
      (r.take (c % g.ringSize)).buf (p % g.ringSize) =
        if p = c then { r.buf (c % g.ringSize) with rxBuf := none }
        else r.buf (p % g.ringSize) := fun p hp hp' =>
    Ring.update_mod r.buf _ (by omega) (by omega)
  constructor
  · exact hr.order_le
  · exact hr.dirty_eq
  · show r.curr + 1 = UInt32.ofNat (c + 1)
    rw [hr.curr_eq, UInt32.ofNat_add]
    rfl
  · omega
  · exact hlt
  · exact hle
  · intro p hp hp'
    -- taken: the slot at `c` joins those before it
    rw [hread p hp (by omega)]
    by_cases hpc : p = c
    · rw [if_pos hpc, hpc]
      exact ⟨(hr.waiting c (Nat.le_refl c) hlt).1, rfl⟩
    · rw [if_neg hpc]
      exact hr.taken p hp (by omega)
  · intro p hp hp'
    exact hr.waiting p (by omega) hp'
  · exact hr.ready
  · intro p hp hp'
    -- owned: the buffers from `c + 1` on
    have hbufeq := hread p (by omega) hp'
    rw [if_neg (by omega)] at hbufeq
    obtain ⟨hbuf, hmapped, hown⟩ := hr.owned p (by omega) hp'
    refine ⟨?_, ?_, ?_⟩
    · rw [hbufeq]
      exact hbuf
    · -- the address that is unmapped is that of another buffer
      rw [hbufeq]
      show Function.update r.mapped _ false _ = true
      rw [Function.update_of_ne]
      · exact hmapped
      · intro heq
        have hpc := hr.distinct p c (by omega) hp' (Nat.le_refl c) (by omega) heq
        omega
    · rw [hbufeq]
      exact hown
  · intro p q hp hp' hq hq' heq
    rw [hread p (by omega) hp', hread q (by omega) hq', if_neg (by omega), if_neg (by omega)] at heq
    exact hr.distinct p q (by omega) hp' (by omega) hq' heq

/-- The driver gives the oldest free descriptor a new buffer. -/
theorem RxRep.refill (hr : RxRep g r mem frames d c h) (hlt : d < c) {data : RxData}
    (hnew : r.mapped data.dmaAddr = false) {r1 : RxRing}
    (hfill : r.fillRxBuf g (d % g.ringSize) (some data) = some r1) :
    RxRep g { r1.setEmpty (d % g.ringSize) with dirty := r1.dirty + 1 } mem frames (d + 1) c h := by
  have hle := hr.le_size
  have hch := hr.le_done
  cases hfill
  have hwrap : (d + g.ringSize) % g.ringSize = d % g.ringSize := Nat.add_mod_right ..
  -- the slot of `d` is now that of the last position in the ring, the others keep theirs
  have hupd : ∀ {α : Type} (f : Nat → α) (a : α) p, d + 1 ≤ p → p < d + 1 + g.ringSize →
      Function.update f (d % g.ringSize) a (p % g.ringSize) =
        if p = d + g.ringSize then a else f (p % g.ringSize) := by
    intro α f a p hp hp'
    rw [← hwrap]
    exact Ring.update_mod f a (by omega) (by omega)
  constructor
  · exact hr.order_le
  · show r.dirty + 1 = UInt32.ofNat (d + 1)
    rw [hr.dirty_eq, UInt32.ofNat_add]
    rfl
  · exact hr.curr_eq
  · exact hlt
  · exact hch
  · omega
  · intro p hp hp'
    simp only [RxRing.setEmpty, hupd _ _ p hp (show p < d + 1 + g.ringSize by omega),
      if_neg (show ¬p = d + g.ringSize by omega)]
    exact hr.taken p (by omega) hp'
  · intro p hp hp'
    simp only [RxRing.setEmpty, hupd _ _ p (show d + 1 ≤ p by omega) (show p < d + 1 + g.ringSize by omega),
      if_neg (show ¬p = d + g.ringSize by omega)]
    exact hr.waiting p hp hp'
  · intro p hp hp'
    simp only [RxRing.setEmpty, hupd _ _ p (show d + 1 ≤ p by omega) hp']
    split
    · rfl
    · exact hr.ready p hp (by omega)
  -- the buffer refilled is the new one, every other slot owns what it did
  · intro p hp hp'
    by_cases hpd : p = d + g.ringSize
    · constructor
      · simp only [RxRing.setEmpty, hupd _ _ p (show d + 1 ≤ p by omega) hp', if_pos hpd]
        exact ⟨data.ptr, rfl⟩
      · simp only [RxRing.setEmpty, hupd _ _ p (show d + 1 ≤ p by omega) hp', if_pos hpd]
        exact Function.update_self ..
      · simp only [RxRing.setEmpty, hupd _ _ p (show d + 1 ≤ p by omega) hp', if_pos hpd,
          Function.update_self]
    · obtain ⟨hbuf, hmapped, hown⟩ := hr.owned p hp (by omega)
      constructor
      · simp only [RxRing.setEmpty, hupd _ _ p (show d + 1 ≤ p by omega) hp', if_neg hpd]
        exact hbuf
      · simp only [RxRing.setEmpty, hupd _ _ p (show d + 1 ≤ p by omega) hp', if_neg hpd]
        rw [Function.update_of_ne]
        · exact hmapped
        · intro heq
          rw [heq, hnew] at hmapped
          cases hmapped
      · simp only [RxRing.setEmpty, hupd _ _ p (show d + 1 ≤ p by omega) hp', if_neg hpd]
        exact hown
  · intro p q hp hp' hq hq' heq
    simp only [RxRing.setEmpty, hupd _ _ p (show d + 1 ≤ p by omega) hp',
      hupd _ _ q (show d + 1 ≤ q by omega) hq'] at heq
    -- the new address was not mapped, the old ones were
    by_cases hpd : p = d + g.ringSize <;> by_cases hqd : q = d + g.ringSize
    · rw [hpd, hqd]
    · rw [if_pos hpd, if_neg hqd] at heq
      have hmapped := (hr.owned q hq (by omega)).mapped
      rw [← heq, hnew] at hmapped
      cases hmapped
    · rw [if_neg hpd, if_pos hqd] at heq
      have hmapped := (hr.owned p hp (by omega)).mapped
      rw [heq, hnew] at hmapped
      cases hmapped
    · rw [if_neg hpd, if_neg hqd] at heq
      exact hr.distinct p q hp (by omega) hq (by omega) heq

end HandsomeMod.Native.Ag71xx
