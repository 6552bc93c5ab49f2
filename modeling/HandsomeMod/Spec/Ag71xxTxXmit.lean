import HandsomeMod.Spec.Ag71xxTxRing

/-!
# Queueing a frame

`ag71xx_fill_dma_desc` succeeds if the ring has room for the frame, and
`ag71xx_hard_start_xmit` then appends the frame to the queue.
-/

namespace HandsomeMod.Native.Ag71xx

open ForStd

variable {g : TxCfg} {r : TxRing} {d c h : Nat} {pk : List (Nat × Nat)}

/-- The length of the first segment of a frame. -/
def segLen (split len : Nat) : Nat :=
  if len > split then if len ≤ split + 4 then split - 4 else split else len

/-- The number of segments of a frame. -/
def numSegs (split : Nat) : Nat → Nat → Nat
  | 0, _ => 0
  | fuel + 1, len => if len = 0 then 0 else numSegs split fuel (len - segLen split len) + 1

/-- The number of descriptors that `ag71xx_fill_dma_desc` uses. -/
def numDescs (g : TxCfg) (len : Nat) : Nat :=
  numSegs (if g.descSplit = 0 then len else g.descSplit) len len

theorem numSegs_zero (split fuel : Nat) : numSegs split fuel 0 = 0 := by
  cases fuel <;> rfl

/-- A frame that is not longer than the split size is one segment. -/
theorem numSegs_of_le {split fuel len : Nat} (h : len ≤ split) : numSegs split fuel len ≤ 1 := by
  cases fuel with
  | zero => exact Nat.zero_le _
  | succ fuel =>
    rw [numSegs]
    split
    · exact Nat.zero_le _
    · rw [segLen, if_neg (by omega), Nat.sub_self, numSegs_zero]

/-- A frame of at most `m` full segments and 4 bytes takes at most `m + 1` descriptors. -/
theorem numSegs_le {split : Nat} (hsplit : 8 ≤ split) {m : Nat} (hm : 1 ≤ m) {fuel len : Nat}
    (h : len ≤ split * m + 4) : numSegs split fuel len ≤ m + 1 := by
  -- the first segment takes `split` bytes, or 4 less where that would leave 4 or fewer
  induction m, hm using Nat.le_induction generalizing fuel len with
  -- what the first segment leaves fits one more
  | base =>
    cases fuel with
    | zero => exact Nat.zero_le _
    | succ fuel =>
      rw [numSegs]
      split
      · exact Nat.zero_le _
      · apply Nat.succ_le_succ
        apply numSegs_of_le
        rw [segLen]
        split
        · rw [if_pos (by omega)]
          omega
        · omega
  -- what the first segment leaves fits the segments that are left
  | succ m hm ih =>
    cases fuel with
    | zero => exact Nat.zero_le _
    | succ fuel =>
      rw [Nat.mul_succ] at h
      have hpos : split ≤ split * m := Nat.le_mul_of_pos_right split hm
      rw [numSegs]
      split
      · exact Nat.zero_le _
      · apply Nat.succ_le_succ
        apply ih
        rw [segLen]
        split
        · split <;> omega
        · omega

/-- A frame takes a descriptor at least. -/
private theorem numDescs_pos {g : TxCfg} {len : Nat} (h : 0 < len) : 0 < numDescs g len := by
  obtain ⟨n, rfl⟩ := Nat.exists_eq_add_one_of_ne_zero (Nat.ne_of_gt h)
  rw [numDescs, numSegs, if_neg (Nat.succ_ne_zero n)]
  exact Nat.succ_pos _

/-- The loop has filled the descriptors from `c + j` on, and DESC_EMPTY stays set in the first one
    of the frame. -/
private theorem fillDmaDescLoop_spec (horder : g.order ≤ 31) {s : Nat} (hs : g.ringSize = s)
    (split fuel j len : Nat) (addr : UInt32) (hcurr : r.curr = UInt32.ofNat c)
    (hlen : fuel = 0 → len = 0) (hseg : ∀ l, 0 < l → l ≤ len → 0 < segLen split l)
    (hle : len ≤ fuel) (hdc : d ≤ c) (hroom : c + j + numSegs split fuel len ≤ d + s)
    (hfree : ∀ p, c + j ≤ p → p < c + j + numSegs split fuel len →
      (r.desc (p % s)).empty = true) :
    ∃ r', fillDmaDescLoop g split fuel r addr len j = (r', some (j + numSegs split fuel len)) ∧
      r'.buf = r.buf ∧ r'.curr = r.curr ∧ r'.dirty = r.dirty ∧
      ∀ p, d ≤ p → p < d + s → (r'.desc (p % s)).empty =
        if c + j ≤ p ∧ p < c + j + numSegs split fuel len then decide (p = c)
        else (r.desc (p % s)).empty := by
  -- Induction on the bytes that are left: a turn fills the descriptor at `c + j`.
  induction fuel generalizing r j len addr with
  | zero =>
    refine ⟨r, rfl, rfl, rfl, rfl, fun p _ _ => ?_⟩
    rw [if_neg]
    rw [numSegs]
    omega
  | succ fuel ih =>
    rw [fillDmaDescLoop]
    by_cases hzero : len = 0
    · rw [if_pos hzero, hzero, numSegs_zero]
      refine ⟨r, rfl, rfl, rfl, rfl, fun p _ _ => ?_⟩
      rw [if_neg (by omega)]
    · have hsegs : numSegs split (fuel + 1) len = numSegs split fuel (len - segLen split len) + 1 := by
        rw [numSegs, if_neg hzero]
      have hpos := hseg len (Nat.pos_of_ne_zero hzero) (Nat.le_refl _)
      -- the descriptor of this turn is free
      have hslot : Ring.slot g.order (r.curr + UInt32.ofNat j) = (c + j) % s := by
        rw [hcurr, ← UInt32.ofNat_add, Ring.slot_ofNat (by omega), ← hs]
        rfl
      have hempty := hfree (c + j) (Nat.le_refl _) (by omega)
      rw [hsegs] at hroom hfree ⊢
      rw [if_neg hzero, hslot]
      simp only
      rw [hempty]
      simp only [Bool.not_true, Bool.false_eq_true, if_false]
      have hread : ∀ (x : Desc) p, p < c + j + s → c + j < p + s →
          Function.update r.desc ((c + j) % s) x (p % s) =
            if p = c + j then x else r.desc (p % s) := fun x p hp hp' =>
        Ring.update_mod r.desc x hp hp'
      obtain ⟨r', hloop, hbuf, hcurr', hdirty, hdesc⟩ :=
        ih (r := { r with desc := Function.update r.desc ((c + j) % s)
                            { data := addr, pktlen := segLen split len,
                              more := decide (len - segLen split len > 0),
                              empty := decide (j = 0) } })
          (j + 1) (len - segLen split len) (addr + UInt32.ofNat (segLen split len)) hcurr (by omega)
          (fun l hl hle => hseg l hl (by omega)) (by omega) (by omega)
          (by
            intro p hp hp'
            simp only
            rw [hread _ p (by omega) (by omega), if_neg (by omega)]
            exact hfree p (by omega) (by omega))
      refine ⟨r', ?_, hbuf, hcurr', hdirty, ?_⟩
      · rw [show j + (numSegs split fuel (len - segLen split len) + 1) =
          j + 1 + numSegs split fuel (len - segLen split len) by omega]
        exact hloop
      -- DESC_EMPTY is cleared in all but the first descriptor
      · intro p hp hp'
        rw [hdesc p hp hp']
        simp only
        rw [hread _ p (by omega) (by omega)]
        by_cases hpj : p = c + j
        · rw [if_neg (by omega), if_pos hpj, if_pos (by omega)]
          simp only
          exact decide_eq_decide.mpr (by omega)
        · rw [if_neg hpj]
          by_cases hin : c + (j + 1) ≤ p ∧
              p < c + (j + 1) + numSegs split fuel (len - segLen split len)
          · rw [if_pos hin, if_pos (by omega)]
          · rw [if_neg hin, if_neg (by omega)]

/-- With room for the frame, `ag71xx_fill_dma_desc` does not fail. -/
theorem fillDmaDesc_spec (hr : TxRep g r d c h pk) (addr : UInt32) {len : Nat}
    (hsplit : g.descSplit = 0 ∨ 8 ≤ g.descSplit)
    (hroom : c + numDescs g len ≤ d + g.ringSize) :
    ∃ r', fillDmaDesc g r addr len = (r', some (numDescs g len)) ∧
      r'.buf = r.buf ∧ r'.curr = r.curr ∧ r'.dirty = r.dirty ∧
      ∀ p, d ≤ p → p < d + g.ringSize → (r'.desc (p % g.ringSize)).empty =
        if c ≤ p ∧ p < c + numDescs g len then decide (p = c)
        else (r.desc (p % g.ringSize)).empty := by
  -- every segment takes something off the length, so the loop ends
  have hseg : ∀ l, 0 < l → l ≤ len →
      0 < segLen (if g.descSplit = 0 then len else g.descSplit) l := by
    intro l hl hle
    rw [segLen]
    by_cases hzero : g.descSplit = 0
    · rw [if_pos hzero, if_neg (by omega)]
      exact hl
    · rw [if_neg hzero]
      split
      · split <;> omega
      · exact hl
  obtain ⟨r', hloop, hrest⟩ := fillDmaDescLoop_spec (d := d) hr.order_le rfl
    (if g.descSplit = 0 then len else g.descSplit) len 0 len addr hr.curr_eq (fun h0 => h0) hseg (Nat.le_refl _)
    (Nat.le_trans hr.le_done hr.done_le) hroom (by
      intro p hp hp'
      exact (hr.free p hp (Nat.lt_of_lt_of_le hp' hroom)).1)
  rw [Nat.zero_add] at hloop
  exact ⟨r', hloop, hrest⟩

/-- When the queue is stopped, in a ring with room for two frames. -/
theorem TxRep.stop_iff (hr : TxRep g r d c h pk) (hmin : g.ringMin ≤ g.ringSize) :
    r.curr - r.dirty ≥ UInt32.ofNat g.ringSize - UInt32.ofNat g.ringMin ↔
      g.ringSize ≤ descs pk + g.ringMin := by
  have hsize := hr.ringSize_lt
  rw [ge_iff_le, UInt32.le_iff_toNat_le, Ring.sub_ofNat hmin (by omega), hr.sub_eq]
  omega

/-- `ag71xx_hard_start_xmit` appends the frame. -/
theorem hardStartXmit_spec (hr : TxRep g r d c h pk) (skb : Nat) {len : Nat} (addr : UInt32)
    (hsplit : g.descSplit = 0 ∨ 8 ≤ g.descSplit) (hlen : 5 ≤ len)
    (hmask : len &&& g.pktlenMask = len) (hroom : c + numDescs g len ≤ d + g.ringSize) :
    ∃ r', hardStartXmit g r skb len addr = (r', .queued (decide
        (r'.curr - r'.dirty ≥ UInt32.ofNat g.ringSize - UInt32.ofNat g.ringMin))) ∧
      TxRep g r' d (c + numDescs g len) h (pk ++ [(skb, numDescs g len)]) := by
  obtain ⟨r1, hfill, hbuf, hcurr, hdirty, hdesc⟩ :=
    fillDmaDesc_spec hr addr hsplit hroom
  have hpos := numDescs_pos (g := g) (show 0 < len by omega)
  have hsize := hr.ringSize_lt
  have hdone := hr.done_le
  have hle := hr.le_done
  have htotal := hr.total
  -- the slots of the first and of the last descriptor of the frame
  have hfirst : Ring.slot g.order r.curr = c % g.ringSize := by
    have hslot := hr.slot_curr 0
    rwa [show (UInt32.ofNat 0 : UInt32) = 0 from rfl, UInt32.add_zero, Nat.add_zero] at hslot
  have hlast : Ring.slot g.order (r1.curr + UInt32.ofNat (numDescs g len) - 1) =
      (c + numDescs g len - 1) % g.ringSize := by
    have horder := hr.order_le
    obtain ⟨n, hn⟩ := Nat.exists_eq_add_one_of_ne_zero (Nat.ne_of_gt hpos)
    rw [hn, hcurr, UInt32.ofNat_add, ← UInt32.add_assoc, show (UInt32.ofNat 1 : UInt32) = 1 from rfl,
      UInt32.add_sub_cancel, hr.slot_curr]
    rfl
  generalize hn : numDescs g len = n at *
  refine ⟨r1.enqueue (c % g.ringSize) ((c + n - 1) % g.ringSize) n skb len, ?_, ?_⟩
  · rw [hardStartXmit, if_neg (by omega), hfirst, hmask, hfill]
    simp only
    rw [hlast]
  -- only now the first descriptor is handed over, and the last one gets the `skb`
  · have hreadDesc : ∀ p, d ≤ p → p < d + g.ringSize →
        ((r1.enqueue (c % g.ringSize) ((c + n - 1) % g.ringSize) n skb len).desc
          (p % g.ringSize)).empty =
        if c ≤ p ∧ p < c + n then false else (r.desc (p % g.ringSize)).empty := by
      intro p hp hp'
      show (Function.update r1.desc (c % g.ringSize) _ (p % g.ringSize)).empty = _
      rw [Ring.update_mod r1.desc _ (by omega) (by omega)]
      by_cases hpc : p = c
      · rw [if_pos hpc, if_pos (by omega)]
      · rw [if_neg hpc, hdesc p hp hp', decide_eq_false hpc]
    have hreadBuf : ∀ p, d ≤ p → p < d + g.ringSize →
        ((r1.enqueue (c % g.ringSize) ((c + n - 1) % g.ringSize) n skb len).buf
          (p % g.ringSize)).skb =
        if p = c + n - 1 then some skb else (r.buf (p % g.ringSize)).skb := by
      intro p hp hp'
      show (Function.update r1.buf ((c + n - 1) % g.ringSize) _ (p % g.ringSize)).skb = _
      rw [Ring.update_mod r1.buf _ (by omega) (by omega), hbuf]
      split <;> rfl
    constructor
    · exact hr.order_le
    · exact hdirty.trans hr.dirty_eq
    · show r1.curr + UInt32.ofNat n = UInt32.ofNat (c + n)
      rw [hcurr, hr.curr_eq, UInt32.ofNat_add]
    · exact hle
    · omega
    · exact hroom
    · rw [descs_append, ← Nat.add_assoc, htotal]
      rfl
    -- the descriptors that are done, that the hardware has, and that are free
    · intro p hp hp'
      rw [hreadDesc p hp (by omega), if_neg (by omega)]
      exact hr.done p hp hp'
    · intro p hp hp'
      rw [hreadDesc p (by omega) (by omega)]
      split
      · rfl
      · exact hr.busy p hp (by omega)
    · intro p hp hp'
      obtain ⟨hempty, hskb⟩ := hr.free p (by omega) hp'
      rw [hreadDesc p (by omega) hp', hreadBuf p (by omega) hp', if_neg (by omega),
        if_neg (by omega)]
      exact ⟨hempty, hskb⟩
    · apply Frames.append
      · apply hr.frames.congr
        intro p hp hp'
        rw [hreadBuf p hp (by omega), if_neg (by omega)]
      · rw [htotal]
        refine ⟨hpos, ?_, ?_, trivial⟩
        · intro p hp hp'
          rw [hreadBuf p (by omega) (by omega), if_neg (by omega)]
          exact (hr.free p hp (by omega)).2
        · rw [hreadBuf _ (by omega) (by omega), if_pos rfl]

/-- In a full ring that the hardware has not started on, a frame is dropped. -/
theorem hardStartXmit_full (hr : TxRep g r d c d pk) (hfull : c = d + g.ringSize) (skb : Nat)
    {len : Nat} (addr : UInt32) (hlen : 5 ≤ len) (hmask : len &&& g.pktlenMask = len) :
    hardStartXmit g r skb len addr = (r, .dropped) := by
  have hpos : 0 < g.ringSize := Nat.two_pow_pos g.order
  have hslot := hr.slot_curr 0
  rw [Nat.add_zero, hfull, Nat.add_mod_right] at hslot
  have hbusy := hr.busy d (Nat.le_refl d) (by omega)
  obtain ⟨n, rfl⟩ := Nat.exists_eq_add_one_of_ne_zero (show len ≠ 0 by omega)
  rw [hardStartXmit, if_neg (by omega), hmask, fillDmaDesc, fillDmaDescLoop,
    if_neg (Nat.succ_ne_zero n), hslot]
  simp only
  rw [hbusy]
  rfl

end HandsomeMod.Native.Ag71xx
