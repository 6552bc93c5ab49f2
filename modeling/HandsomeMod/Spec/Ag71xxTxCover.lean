import HandsomeMod.Spec.Ag71xxTxXmit

/-!
# Dropping a frame

When `ag71xx_fill_dma_desc` meets a busy descriptor, only the first descriptor of the frame keeps
DESC_EMPTY, those behind it stay without the flag.
-/

namespace HandsomeMod.Native.Ag71xx

open ForStd

variable {g : TxCfg} {r r' : TxRing}

/-- A descriptor is written. -/
def TxRing.setDesc (r : TxRing) (i : Nat) (desc : Desc) : TxRing :=
  { r with desc := Function.update r.desc i desc }

/-- Filling a descriptor changes the empty flag of this one only. -/
theorem TxRing.setDesc_empty (i : Nat) (desc : Desc) (k : Nat) :
    ((r.setDesc i desc).desc k).empty = if k = i then desc.empty else (r.desc k).empty := by
  rw [TxRing.setDesc]
  by_cases hk : k = i
  · rw [hk, if_pos rfl]
    simp only [Function.update_self]
  · rw [if_neg hk]
    simp only [Function.update_of_ne hk]

/-- A turn of a call that fails: the descriptor is busy, or it is written and the call goes on. -/
theorem fillDmaDescLoop_succ {split fuel len j : Nat} {addr : UInt32}
    (h : fillDmaDescLoop g split (fuel + 1) r addr len j = (r', none)) :
    ((r.desc (Ring.slot g.order (r.curr + UInt32.ofNat j))).empty = false ∧ r' = r) ∨
    ((r.desc (Ring.slot g.order (r.curr + UInt32.ofNat j))).empty = true ∧
      ∃ desc addr' len', desc.empty = decide (j = 0) ∧
        fillDmaDescLoop g split fuel
          (r.setDesc (Ring.slot g.order (r.curr + UInt32.ofNat j)) desc) addr' len' (j + 1) =
            (r', none)) := by
  rw [fillDmaDescLoop] at h
  split at h
  · cases (Prod.mk.inj h).2
  · cases hempty : (r.desc (Ring.slot g.order (r.curr + UInt32.ofNat j))).empty with
    | false =>
      simp only [hempty, Bool.not_false, if_true, Prod.mk.injEq, and_true] at h
      exact .inl ⟨rfl, h.symm⟩
    | true =>
      simp only [hempty, Bool.not_true, Bool.false_eq_true, if_false] at h
      exact .inr ⟨rfl, _, _, _, rfl, h⟩

/-- Behind the first descriptor of a frame no turn sets DESC_EMPTY. -/
theorem fillDmaDescLoop_cleared {split fuel len j : Nat} {addr : UInt32} (hj : j ≠ 0)
    (h : fillDmaDescLoop g split fuel r addr len j = (r', none)) {k : Nat}
    (hk : (r.desc k).empty = false) : (r'.desc k).empty = false := by
  induction fuel generalizing r addr len j with
  | zero => cases (Prod.mk.inj h).2
  | succ fuel ih =>
    rcases fillDmaDescLoop_succ h with ⟨-, rfl⟩ | ⟨-, desc, addr', len', hdesc, hloop⟩
    · exact hk
    · refine ih (Nat.succ_ne_zero j) hloop ?_
      rw [TxRing.setDesc_empty, hdesc, decide_eq_false hj, hk, ite_self]

/-- A frame that is not queued leaves DESC_EMPTY as it was in all descriptors exactly if the first
    or the second one that it would use is busy. -/
theorem fillDmaDesc_none_empty_iff (g : TxCfg) (r r' : TxRing) (addr : UInt32) (len : Nat)
    (h : fillDmaDesc g r addr len = (r', none)) :
    (∀ i, (r'.desc i).empty = (r.desc i).empty) ↔
      (r.desc (Ring.slot g.order r.curr)).empty = false ∨
        (r.desc (Ring.slot g.order (r.curr + 1))).empty = false := by
  rw [fillDmaDesc] at h
  generalize (if g.descSplit = 0 then len else g.descSplit) = split at h
  cases hfuel : len with
  | zero =>
    rw [hfuel] at h
    cases (Prod.mk.inj h).2
  | succ fuel =>
    rw [hfuel] at h
    rcases fillDmaDescLoop_succ h with ⟨hbusy, rfl⟩ | ⟨hfree, desc, addr', len', hdesc, hloop⟩
    · rw [show r'.curr + UInt32.ofNat 0 = r'.curr from UInt32.add_zero _] at hbusy
      -- the first descriptor is busy, nothing was written
      exact ⟨fun _ => .inl hbusy, fun _ _ => rfl⟩
    · rw [show r.curr + UInt32.ofNat 0 = r.curr from UInt32.add_zero _] at hfree hloop
      -- the first descriptor is written with the flag that it has
      have hsame (k : Nat) : ((r.setDesc (Ring.slot g.order r.curr) desc).desc k).empty =
          (r.desc k).empty := by
        rw [TxRing.setDesc_empty, hdesc]
        split
        · rename_i hk
          rw [hk, hfree]
          rfl
        · rfl
      rw [hfree, ← hsame (Ring.slot g.order (r.curr + 1))]
      simp only [← hsame, Bool.true_eq_false, false_or]
      cases fuel with
      | zero => cases (Prod.mk.inj hloop).2
      | succ fuel =>
        rcases fillDmaDescLoop_succ hloop with ⟨hbusy, rfl⟩ | ⟨hfree', desc', _, _, hdesc', hloop'⟩
        -- the second descriptor is busy, only the first one was written
        · exact ⟨fun _ => hbusy, fun _ _ => rfl⟩
        · -- the second one loses it
          constructor
          · intro hall
            rw [← hall]
            refine fillDmaDescLoop_cleared (Nat.succ_ne_zero 1) hloop' ?_
            rw [TxRing.setDesc_empty]
            exact (if_pos rfl).trans hdesc'
          · intro hbusy
            exact absurd (hfree'.symm.trans hbusy) (by decide)

/-- An AR7100 whose transmit ring was set to one packet, before anything is queued. -/
def smallRing : TxRing where
  desc _ := { data := 0, pktlen := 0, more := false, empty := true }
  buf _ := { skb := none, len := 0 }
  curr := 0
  dirty := 0

/-- A frame of three segments behind one of two, in a ring of four descriptors. -/
theorem fillDmaDesc_none_empty_iff_smallRing :
    let g := Compatible.ar7100.txCfg 1
    let r := (hardStartXmit g smallRing 0 600 0).1
    let r' := (fillDmaDesc g r 0 1514).1
    (∀ i, (r'.desc i).empty = (r.desc i).empty) ↔
      (r.desc (Ring.slot g.order r.curr)).empty = false ∨
        (r.desc (Ring.slot g.order (r.curr + 1))).empty = false :=
  fillDmaDesc_none_empty_iff _ _ _ 0 1514 rfl

/-- Behind a frame of two descriptors, a frame of three does not fit into a ring of four. -/
theorem droppedFrame_wedges :
    let g := Compatible.ar7100.txCfg 1
    let r := (hardStartXmit g smallRing 0 600 0).1
    let r' := (fillDmaDesc g r 0 (1514 &&& g.pktlenMask)).1
    hardStartXmit g r 1 1514 0 = (r', .dropped) ∧
      (fillDmaDesc g r 0 (1514 &&& g.pktlenMask)).2 = none ∧
      (r.desc 3).empty = true ∧ (r'.desc 3).empty = false := by
  refine ⟨rfl, ?_, ?_, ?_⟩ <;> decide
end HandsomeMod.Native.Ag71xx

/-!
## The segments of a frame

`ag71xx_fill_dma_desc` cuts a frame into segments, one for each descriptor. On an empty ring they
cover the frame, provided that the ring has a descriptor for each: the first one keeps DESC_EMPTY
until the frame is queued, so a frame that comes around does not notice that it is taken.
-/

namespace HandsomeMod.Native.Ag71xx

open ForStd

variable {g : TxCfg} {r : TxRing} {split fuel len : Nat}

/-- `DESC_MORE` -/
def descMore : UInt32 := (1 : UInt32) <<< 24

/-- `DESC_EMPTY` -/
def descEmpty : UInt32 := (1 : UInt32) <<< 31

/-- `desc->ctrl` -/
def Desc.ctrl (d : Desc) : UInt32 :=
  UInt32.ofNat d.pktlen ||| ((if d.more then descMore else 0) ||| (if d.empty then descEmpty else 0))

/-- The lengths of the segments of a frame. -/
def segments (split : Nat) : Nat → Nat → List Nat
  | 0, _ => []
  | fuel + 1, len =>
    if len = 0 then [] else segLen split len :: segments split fuel (len - segLen split len)

/-- The slot of the `k`-th descriptor of a frame -/
def TxRing.slotAt (g : TxCfg) (r : TxRing) (k : Nat) : Nat :=
  Ring.slot g.order (r.curr + UInt32.ofNat k)

/-- `ag71xx_fill_dma_desc` has covered a frame with descriptors for these segments. -/
structure Covers (g : TxCfg) (r : TxRing) (addr : UInt32) (len : Nat) (segs : List Nat) : Prop where
  /-- There is a descriptor for each segment. -/
  result : (fillDmaDesc g r addr len).2 = some segs.length
  sum_eq : segs.sum = len
  long : ∀ s ∈ segs, 4 < s
  short : g.descSplit ≠ 0 → ∀ s ∈ segs, s ≤ g.descSplit
  few : g.descSplit = txRingSplit → len ≤ 1540 → segs.length ≤ txRingDsPerPkt
  /-- A segment begins where the ones before it end. -/
  data : ∀ k (_ : k < segs.length),
    ((fillDmaDesc g r addr len).1.desc (r.slotAt g k)).data = addr + UInt32.ofNat (segs.take k).sum
  pktlen : ∀ k (_ : k < segs.length),
    ((fillDmaDesc g r addr len).1.desc (r.slotAt g k)).ctrl &&& UInt32.ofNat g.pktlenMask =
      UInt32.ofNat segs[k]
  more : ∀ k (_ : k < segs.length),
    ((fillDmaDesc g r addr len).1.desc (r.slotAt g k)).ctrl &&& descMore ≠ 0 ↔ k + 1 < segs.length
  /-- No other descriptor is written. -/
  rest : ∀ i, (∀ k < segs.length, i ≠ r.slotAt g k) →
    (fillDmaDesc g r addr len).1.desc i = r.desc i

/-! ### The lengths of the segments -/

/-- The segments are as many as the descriptors that the frame takes. -/
private theorem length_segments : (segments split fuel len).length = numSegs split fuel len := by
  induction fuel generalizing len with
  | zero => rfl
  | succ fuel ih =>
    rw [segments, numSegs]
    split
    · rfl
    · rw [List.length_cons, ih]

/-- A segment is not longer than what is left of the frame. -/
private theorem segLen_le (split len : Nat) : segLen split len ≤ len := by
  rw [segLen]
  split
  · split <;> omega
  · exact Nat.le_refl len

/-- A segment is not longer than the split size. -/
private theorem segLen_le_split (split len : Nat) : segLen split len ≤ split := by
  rw [segLen]
  split
  · split <;> omega
  · omega

/-- Neither a segment nor what it leaves is of 4 bytes or less. -/
private theorem segLen_long (hsplit : 9 ≤ split ∨ len ≤ split) (hlen : 4 < len) :
    4 < segLen split len ∧ (len - segLen split len = 0 ∨ 4 < len - segLen split len) := by
  rw [segLen]
  split
  · split <;> omega
  · omega

/-- The segments cover the frame. -/
private theorem sum_segments (hsplit : 9 ≤ split ∨ len ≤ split) (hlen : len = 0 ∨ 4 < len)
    (hle : len ≤ fuel) : (segments split fuel len).sum = len := by
  induction fuel generalizing len with
  | zero =>
    rw [Nat.le_zero.mp hle]
    rfl
  | succ fuel ih =>
    rw [segments]
    split
    · rename_i hzero
      rw [hzero]
      rfl
    -- the segment is taken from the length, and what is left is none or more than four bytes
    · obtain ⟨hseg, hrest⟩ := segLen_long hsplit (by omega)
      have hsub := segLen_le split len
      rw [List.sum_cons, ih (by omega) hrest (by omega)]
      omega

/-- No segment is of four bytes or less. -/
private theorem segments_long (hsplit : 9 ≤ split ∨ len ≤ split) (hlen : len = 0 ∨ 4 < len)
    {s : Nat}
    (hs : s ∈ segments split fuel len) : 4 < s := by
  induction fuel generalizing len with
  | zero => cases hs
  | succ fuel ih =>
    rw [segments] at hs
    split at hs
    · cases hs
    · obtain ⟨hseg, hrest⟩ := segLen_long hsplit (by omega)
      rcases List.mem_cons.mp hs with rfl | hmem
      · exact hseg
      · exact ih (by omega) hrest hmem

/-- No segment is longer than the split size. -/
private theorem segments_short {s : Nat} (hs : s ∈ segments split fuel len) : s ≤ split := by
  induction fuel generalizing len with
  | zero => cases hs
  | succ fuel ih =>
    rw [segments] at hs
    split at hs
    · cases hs
    · rcases List.mem_cons.mp hs with rfl | hmem
      · exact segLen_le_split split len
      · exact ih hmem

/-- A frame takes as many descriptors as full segments do, although a segment may be shortened. -/
private theorem numSegs_le_iff (hsplit : 9 ≤ split) (hle : len ≤ fuel) {n : Nat} :
    numSegs split fuel len ≤ n ↔ len ≤ split * n := by
  induction fuel generalizing len n with
  | zero =>
    rw [Nat.le_zero.mp hle]
    exact iff_of_true (Nat.zero_le _) (Nat.zero_le _)
  | succ fuel ih =>
    rw [numSegs]
    split
    · rename_i hzero
      rw [hzero]
      exact iff_of_true (Nat.zero_le _) (Nat.zero_le _)
    · rename_i hzero
      cases n with
      | zero => rw [Nat.mul_zero]; omega
      | succ n =>
        -- every segment takes at least one byte
        have hpos : 0 < segLen split len := by
          rw [segLen]
          split
          · split <;> omega
          · omega
        rw [Nat.add_le_add_iff_right, ih (by omega), Nat.mul_succ, segLen]
        -- what a shortened segment leaves takes one more descriptor, as 4 bytes less would
        have hrest : 0 < n → split ≤ split * n := fun hn => Nat.le_mul_of_pos_right split hn
        rcases Nat.eq_zero_or_pos n with rfl | hn
        · rw [Nat.mul_zero]
          split
          · split <;> omega
          · omega
        · have := hrest hn
          split
          · split <;> omega
          · omega

/-- A frame has room in the empty ring if its full segments do. -/
private theorem numDescs_le_ringSize_iff (hsplit : g.descSplit = 0 ∨ 9 ≤ g.descSplit) :
    numDescs g len ≤ g.ringSize ↔ g.descSplit = 0 ∨ len ≤ g.descSplit * g.ringSize := by
  rw [numDescs]
  by_cases hzero : g.descSplit = 0
  · rw [if_pos hzero]
    refine iff_of_true ?_ (.inl hzero)
    exact Nat.le_trans (numSegs_of_le (Nat.le_refl len)) (Nat.two_pow_pos g.order)
  · rw [if_neg hzero, numSegs_le_iff (by omega) (Nat.le_refl len), or_iff_right hzero]

/-! ### The control word -/

/-- The length field is a mask of at most 24 low bits. -/
theorem descPktlenMask_pow (c : Compatible) : ∃ k ≤ 24, c.descPktlenMask = 2 ^ k - 1 := by
  cases c
  case ar9340 => exact ⟨14, by decide, rfl⟩
  case qca9530 => exact ⟨14, by decide, rfl⟩
  case qca9550 => exact ⟨14, by decide, rfl⟩
  case qca9560 => exact ⟨14, by decide, rfl⟩
  all_goals exact ⟨12, by decide, rfl⟩

/-- The flags are above the length. -/
theorem Desc.ctrl_toNat (d : Desc) (h : d.pktlen < 2 ^ 24) :
    ∃ hi, d.ctrl.toNat = 2 ^ 24 * hi + d.pktlen ∧ hi.testBit 0 = d.more := by
  have hpkt : (UInt32.ofNat d.pktlen).toNat = d.pktlen := by
    rw [UInt32.toNat_ofNat']
    exact Nat.mod_eq_of_lt (by omega)
  refine ⟨(if d.more then 1 else 0) + (if d.empty then 128 else 0), ?_, ?_⟩
  · rw [Desc.ctrl, UInt32.toNat_or, hpkt, Nat.or_comm, Nat.two_pow_add_eq_or_of_lt h]
    congr 1
    cases d.more <;> cases d.empty <;> decide
  · cases d.more <;> cases d.empty <;> rfl

/-- The length field of a control word is the length of the segment. -/
theorem Desc.ctrl_and_mask (d : Desc) {k : Nat} (hk : k ≤ 24) (h : d.pktlen ≤ 2 ^ k - 1) :
    d.ctrl &&& UInt32.ofNat (2 ^ k - 1) = UInt32.ofNat d.pktlen := by
  have hpow : 2 ^ k ≤ 2 ^ 24 := Nat.pow_le_pow_right (by decide) hk
  have hpos := Nat.two_pow_pos k
  obtain ⟨hi, hctrl, -⟩ := d.ctrl_toNat (by omega)
  obtain ⟨m, hm⟩ := Nat.pow_dvd_pow 2 hk
  apply UInt32.toNat_inj.mp
  rw [UInt32.toNat_and, hctrl, UInt32.toNat_ofNat', UInt32.toNat_ofNat',
    Nat.mod_eq_of_lt (by omega), Nat.mod_eq_of_lt (by omega), Nat.and_two_pow_sub_one_eq_mod, hm,
    Nat.mul_assoc, Nat.mul_add_mod, Nat.mod_eq_of_lt (by omega)]

/-- The flag of a control word says whether another segment follows. -/
theorem Desc.ctrl_and_more (d : Desc) (h : d.pktlen < 2 ^ 24) :
    d.ctrl &&& descMore ≠ 0 ↔ d.more = true := by
  obtain ⟨hi, hctrl, hbit⟩ := d.ctrl_toNat h
  have htest : d.ctrl.toNat.testBit 24 = d.more := by
    rw [hctrl, Nat.testBit_two_pow_mul_add _ h, if_neg (by decide), ← hbit]
  have hand : (d.ctrl &&& descMore).toNat = d.more.toNat * 2 ^ 24 := by
    rw [UInt32.toNat_and, ← htest, ← Nat.and_two_pow, show descMore.toNat = 2 ^ 24 by decide]
  rw [ne_eq, ← UInt32.toNat_inj, hand]
  cases d.more <;> decide

/-! ### The descriptors -/

/-- Filling a descriptor does not move the ring. -/
@[simp] theorem TxRing.slotAt_setDesc (i : Nat) (desc : Desc) (k : Nat) :
    (r.setDesc i desc).slotAt g k = r.slotAt g k :=
  rfl

/-- The slots follow one another around the ring. -/
theorem TxRing.slotAt_eq (horder : g.order ≤ 31) (k : Nat) :
    r.slotAt g k = (r.curr.toNat + k) % g.ringSize := by
  rw [TxRing.slotAt, ← UInt32.ofNat_toNat (x := r.curr), ← UInt32.ofNat_add,
    Ring.slot_ofNat (by omega), UInt32.ofNat_toNat]
  rfl

/-- Different segments of a frame have different slots. -/
theorem TxRing.slotAt_ne (horder : g.order ≤ 31) {j k : Nat} (hne : j ≠ k) (hj : j < g.ringSize)
    (hk : k < g.ringSize) : r.slotAt g j ≠ r.slotAt g k := by
  rw [TxRing.slotAt_eq horder, TxRing.slotAt_eq horder]
  exact Ring.mod_ne (d := r.curr.toNat) (by omega) (by omega) (by omega) (by omega) (by omega)

/-- The descriptor of the next segment of a frame -/
def segDesc (split : Nat) (addr : UInt32) (len j : Nat) : Desc :=
  { data := addr, pktlen := segLen split len, more := decide (len - segLen split len > 0)
    empty := decide (j = 0) }

/-- A turn of the loop that writes a descriptor -/
private theorem fillDmaDescLoop_turn {j : Nat} {addr : UInt32} (hlen : len ≠ 0)
    (hempty : (r.desc (r.slotAt g j)).empty = true) :
    fillDmaDescLoop g split (fuel + 1) r addr len j =
      fillDmaDescLoop g split fuel (r.setDesc (r.slotAt g j) (segDesc split addr len j))
        (addr + UInt32.ofNat (segLen split len)) (len - segLen split len) (j + 1) := by
  rw [TxRing.slotAt] at hempty
  rw [fillDmaDescLoop, if_neg hlen]
  simp only [hempty, Bool.not_true, Bool.false_eq_true, if_false]
  rfl

/-- What is left after a segment has one too. -/
private theorem segments_succ_pos (hlen : len ≠ 0) (hle : len ≤ fuel) :
    0 < (segments split fuel len).length := by
  obtain ⟨n, rfl⟩ := Nat.exists_eq_add_one_of_ne_zero (by omega : fuel ≠ 0)
  rw [segments, if_neg hlen]
  exact Nat.succ_pos _

/-- The loop writes a descriptor for each segment, if the ring has as many. -/
private theorem fillDmaDescLoop_segments (horder : g.order ≤ 31) {j : Nat} (addr : UInt32)
    (hsplit : 9 ≤ split ∨ len ≤ split) (hlen : len = 0 ∨ 4 < len) (hle : len ≤ fuel)
    (hfit : j + (segments split fuel len).length ≤ g.ringSize)
    (hempty : ∀ k, j ≤ k → k < g.ringSize → (r.desc (r.slotAt g k)).empty = true) :
    ∃ r', fillDmaDescLoop g split fuel r addr len j =
        (r', some (j + (segments split fuel len).length)) ∧
      (∀ k (hk : k < (segments split fuel len).length), r'.desc (r.slotAt g (j + k)) =
        { data := addr + UInt32.ofNat ((segments split fuel len).take k).sum
          pktlen := (segments split fuel len)[k]
          more := decide (k + 1 < (segments split fuel len).length)
          empty := decide (j + k = 0) }) ∧
      ∀ i, (∀ k < (segments split fuel len).length, i ≠ r.slotAt g (j + k)) →
        r'.desc i = r.desc i := by
  -- one turn writes descriptor `j` for the first segment and leaves the others for the rest
  induction fuel generalizing r j len addr with
  | zero => exact ⟨r, rfl, fun k hk => absurd hk (Nat.not_lt_zero k), fun _ _ => rfl⟩
  | succ fuel ih =>
    by_cases hzero : len = 0
    · rw [fillDmaDescLoop, if_pos hzero, segments, if_pos hzero]
      exact ⟨r, rfl, fun k hk => absurd hk (Nat.not_lt_zero k), fun _ _ => rfl⟩
    · obtain ⟨hseg, hrest⟩ := segLen_long hsplit (by omega)
      have hsub := segLen_le split len
      have hsegs : segments split (fuel + 1) len =
          segLen split len :: segments split fuel (len - segLen split len) := by
        rw [segments, if_neg hzero]
      simp only [hsegs, List.length_cons] at hfit ⊢
      rw [fillDmaDescLoop_turn hzero (hempty j (Nat.le_refl j) (by omega))]
      -- the descriptors behind this one are still empty
      have hempty' (k : Nat) (hjk : j + 1 ≤ k) (hk : k < g.ringSize) :
          ((r.setDesc (r.slotAt g j) (segDesc split addr len j)).desc (r.slotAt g k)).empty =
            true := by
        rw [TxRing.setDesc_empty, if_neg (TxRing.slotAt_ne horder (by omega) hk (by omega))]
        exact hempty k (by omega) hk
      obtain ⟨r', hloop, hwritten, hother⟩ :=
        ih (r := r.setDesc (r.slotAt g j) (segDesc split addr len j)) (j := j + 1)
          (addr + UInt32.ofNat (segLen split len)) (by omega) hrest (by omega) (by omega) hempty'
      have hshift (k : Nat) : j + 1 + k = j + (k + 1) := by omega
      simp only [hshift, TxRing.slotAt_setDesc] at hloop hwritten hother
      refine ⟨r', hloop, ?_, ?_⟩
      · intro k hk
        cases k with
        | zero =>
          rw [hother _ fun k hk => TxRing.slotAt_ne horder (by omega) (by omega) (by omega)]
          refine (Function.update_self ..).trans ?_
          -- the flag says that bytes are left, which is that segments follow
          have hmore : len - segLen split len > 0 ↔
              0 < (segments split fuel (len - segLen split len)).length := by
            constructor
            · intro hpos
              exact segments_succ_pos (by omega) (by omega)
            · intro hpos
              rcases hrest with hnone | hlong
              · rw [hnone, length_segments, numSegs_zero] at hpos
                exact absurd hpos (Nat.lt_irrefl 0)
              · omega
          simp only [segDesc, hmore, List.take_zero, List.sum_nil, List.getElem_cons_zero,
            Nat.add_lt_add_iff_right, Nat.add_zero]
          rw [show (UInt32.ofNat 0 : UInt32) = 0 from rfl, UInt32.add_zero]
        | succ k =>
          rw [hwritten k (by omega)]
          simp only [List.take_succ_cons, List.sum_cons, List.getElem_cons_succ,
            Nat.add_lt_add_iff_right, UInt32.ofNat_add, UInt32.add_assoc]
      · intro i hi
        rw [hother i fun k hk => hi (k + 1) (by omega)]
        exact Function.update_of_ne (hi 0 (by omega)) _ _

/-- The loop returns the number of segments, if it does not fail. -/
private theorem fillDmaDescLoop_some {j n : Nat} {addr : UInt32} {r' : TxRing}
    (h : fillDmaDescLoop g split fuel r addr len j = (r', some n)) :
    n = j + numSegs split fuel len := by
  induction fuel generalizing r j len addr with
  | zero => exact (Option.some.inj (Prod.mk.inj h).2).symm
  | succ fuel ih =>
    by_cases hzero : len = 0
    · rw [fillDmaDescLoop, if_pos hzero] at h
      rw [numSegs, if_pos hzero]
      exact (Option.some.inj (Prod.mk.inj h).2).symm
    -- a busy descriptor ends the loop without a count
    · cases hempty : (r.desc (r.slotAt g j)).empty with
      | false =>
        rw [TxRing.slotAt] at hempty
        simp only [fillDmaDescLoop, if_neg hzero, hempty, Bool.not_false, if_true] at h
        cases (Prod.mk.inj h).2
      | true =>
        rw [fillDmaDescLoop_turn hzero hempty] at h
        rw [ih h, numSegs, if_neg hzero]
        omega

/-! ### The frame -/

/-- A frame that is covered fits into the ring: one that comes around would begin twice in the
    same descriptor. -/
theorem Covers.fits {addr : UInt32} {segs : List Nat} (h : Covers g r addr len segs)
    (horder : g.order ≤ 31) (hlen : len < 2 ^ 32) (hsplit : g.descSplit = 0 ∨ 9 ≤ g.descSplit) :
    g.descSplit = 0 ∨ len ≤ g.descSplit * g.ringSize := by
  rw [← numDescs_le_ringSize_iff hsplit]
  have hsize : 0 < g.ringSize := Nat.two_pow_pos g.order
  obtain ⟨r', hr'⟩ : ∃ r', fillDmaDesc g r addr len = (r', some segs.length) :=
    ⟨_, Prod.ext rfl h.result⟩
  have hcount : segs.length = numDescs g len := by
    rw [numDescs, fillDmaDescLoop_some hr', Nat.zero_add]
  rw [← hcount]
  by_contra hlong
  have hsame : r.slotAt g g.ringSize = r.slotAt g 0 := by
    rw [TxRing.slotAt_eq horder, TxRing.slotAt_eq horder, Nat.add_zero, Nat.add_mod_right]
  have hfirst := h.data 0 (by omega)
  have hback := h.data g.ringSize (by omega)
  rw [hsame, hfirst, List.take_zero, List.sum_nil, UInt32.add_right_inj] at hback
  -- the segments before the ring is full are not empty
  have hpos : 0 < (segs.take g.ringSize).sum := by
    obtain ⟨s, rest, rfl⟩ := List.exists_cons_of_length_pos (by omega : 0 < segs.length)
    obtain ⟨n, hn⟩ := Nat.exists_eq_add_one_of_ne_zero (by omega : g.ringSize ≠ 0)
    have hs := h.long s List.mem_cons_self
    rw [hn, List.take_succ_cons, List.sum_cons]
    omega
  have hsum : (segs.take g.ringSize).sum ≤ len := by
    rw [← h.sum_eq]
    conv_rhs => rw [← List.take_append_drop g.ringSize segs, List.sum_append]
    omega
  have hnat := congrArg UInt32.toNat hback
  rw [UInt32.toNat_ofNat', UInt32.toNat_ofNat'] at hnat
  omega

/-- On an empty ring, a frame that fits is covered. -/
theorem covers_of_fits (c : Compatible) (hmask : g.pktlenMask = c.descPktlenMask)
    (horder : g.order ≤ 31) (hempty : ∀ i < g.ringSize, (r.desc i).empty = true)
    (hsplit : g.descSplit = 0 ∨ 9 ≤ g.descSplit) (addr : UInt32) (hlen : 4 < len)
    (hle : len ≤ g.pktlenMask) (hfit : g.descSplit = 0 ∨ len ≤ g.descSplit * g.ringSize) :
    Covers g r addr len (segments (if g.descSplit = 0 then len else g.descSplit) len len) := by
  generalize hsp : (if g.descSplit = 0 then len else g.descSplit) = split
  have hsplit' : 9 ≤ split ∨ len ≤ split := by
    rw [← hsp]
    split <;> omega
  rw [← numDescs_le_ringSize_iff hsplit, numDescs, hsp] at hfit
  obtain ⟨r', hloop, hwritten, hother⟩ := fillDmaDescLoop_segments (r := r) (j := 0) horder
    addr hsplit' (.inr hlen) (Nat.le_refl len) (by rw [length_segments, Nat.zero_add]; exact hfit)
    (fun k _ hk => hempty _ (by
      rw [TxRing.slotAt_eq horder]
      exact Nat.mod_lt _ (Nat.two_pow_pos g.order)))
  have hfill : fillDmaDesc g r addr len = (r', some (segments split len len).length) := by
    rw [fillDmaDesc, hsp, hloop, Nat.zero_add]
  -- the segments are the whole frame
  have hsum := sum_segments hsplit' (.inr hlen) (Nat.le_refl len)
  -- the flags do not reach into the length
  obtain ⟨m, hm, hpow⟩ := descPktlenMask_pow c
  have hpkt (k : Nat) (hk : k < (segments split len len).length) :
      (segments split len len)[k] ≤ 2 ^ m - 1 := by
    have hmem := List.single_le_sum (fun _ _ => Nat.zero_le _) _ (List.getElem_mem hk)
    omega
  have hpow24 : 2 ^ m ≤ 2 ^ 24 := Nat.pow_le_pow_right (by decide) hm
  simp only [Nat.zero_add] at hwritten hother
  constructor
  · rw [hfill]
  · exact hsum
  · exact fun s hs => segments_long hsplit' (.inr hlen) hs
  · intro hne s hs
    rw [if_neg hne] at hsp
    rw [hsp]
    exact segments_short hs
  -- segments of 512 bytes take 1540 in four
  · intro h512 hmtu
    rw [h512, if_neg (by decide)] at hsp
    rw [length_segments, numSegs_le_iff (by rw [← hsp]; decide) (Nat.le_refl len), ← hsp]
    exact Nat.le_trans hmtu (by decide)
  · intro k hk
    rw [hfill, hwritten k hk]
  · intro k hk
    rw [hfill, hwritten k hk, hmask, hpow]
    exact Desc.ctrl_and_mask _ hm (hpkt k hk)
  · intro k hk
    have hlt := hpkt k hk
    have hpos := Nat.two_pow_pos m
    rw [hfill, hwritten k hk, Desc.ctrl_and_more]
    · exact decide_eq_true_iff
    · show (segments split len len)[k] < 2 ^ 24
      omega
  · rw [hfill]
    exact hother

/-- On an empty ring a frame is covered exactly if the ring has room for it in full segments. -/
theorem fillDmaDesc_covers_iff (c : Compatible) (hmask : g.pktlenMask = c.descPktlenMask)
    (horder : g.order ≤ 31) (hempty : ∀ i < g.ringSize, (r.desc i).empty = true)
    (hsplit : g.descSplit = 0 ∨ 9 ≤ g.descSplit) (addr : UInt32) (hlen : 4 < len)
    (hle : len ≤ g.pktlenMask) :
    (∃ segs, Covers g r addr len segs) ↔ g.descSplit = 0 ∨ len ≤ g.descSplit * g.ringSize := by
  constructor
  · rintro ⟨segs, hcovers⟩
    refine hcovers.fits horder ?_ hsplit
    obtain ⟨m, hm, hpow⟩ := descPktlenMask_pow c
    have hpow24 : 2 ^ m ≤ 2 ^ 24 := Nat.pow_le_pow_right (by decide) hm
    omega
  · exact fun hfit => ⟨_, covers_of_fits c hmask horder hempty hsplit addr hlen hle hfit⟩

/-- A frame of 1514 bytes has room in a ring of four descriptors. -/
theorem fillDmaDesc_covers_iff_smallRing :
    (∃ segs, Covers (Compatible.ar7100.txCfg 1) smallRing 0 1514 segs) ↔
      (Compatible.ar7100.txCfg 1).descSplit = 0 ∨
        1514 ≤ (Compatible.ar7100.txCfg 1).descSplit * (Compatible.ar7100.txCfg 1).ringSize :=
  fillDmaDesc_covers_iff .ar7100 rfl (by decide) (fun _ _ => rfl) (.inr (by decide)) 0 (by decide)
    (by decide)

/-- A frame of five segments in a ring of four: its last segment overwrites the first one, and the
    call does not fail. -/
theorem smallRing_not_covers :
    (fillDmaDesc (Compatible.ar7100.txCfg 1) smallRing 0 2100).2 = some 5 ∧
      ¬∃ segs, Covers (Compatible.ar7100.txCfg 1) smallRing 0 2100 segs := by
  refine ⟨by decide, ?_⟩
  rintro ⟨segs, hcovers⟩
  have hfits := hcovers.fits (by decide) (by decide) (.inr (by decide))
  exact absurd hfits (by decide)

end HandsomeMod.Native.Ag71xx
