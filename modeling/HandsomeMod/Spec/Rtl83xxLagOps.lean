import HandsomeMod.Native.Rtl83xxLag

/-!
# Member registers of the link aggregation groups

Which bits of which register a masked write to the register of one group changes. On the RTL9310
the registers of neighbouring groups overlap: they have 64 bits and are 4 bytes apart.
-/

namespace HandsomeMod.Native.Rtl83xx.Lag

variable {f : Family} {r : Regs}

/-- The member register of a group. -/
def memberReg (f : Family) (r : Regs) (group : Nat) : U64 := f.getPortRegBe (f.trkMbrCtr group) r

/-- The bits of a member register. -/
def Family.width : Family → Nat
  | .rtl8380 => 32
  | .rtl8390 => 64
  | .rtl9300 => 32
  | .rtl9310 => 64

/-- The CPU port has a bit in the registers. -/
theorem Family.cpuPort_lt_width (f : Family) : f.cpuPort < f.width := by
  cases f <;> decide

/-- The port whose bit a write to the register of `g` puts at bit `b` of the register of `k`. -/
def Family.source (f : Family) (g k b : Nat) : Option Nat :=
  if k = g then if b < f.width then some b else none
  else if f = .rtl9310 then
    if k = g + 1 ∧ 32 ≤ b then some (b - 32)
    else if k + 1 = g ∧ b < 32 then some (b + 32)
    else none
  else none

/-- The bit of port `p` in the register of `g` is in the register of another group too. -/
def Overlap (f : Family) (g p : Nat) : Prop :=
  f = .rtl9310 ∧ (if p < 32 then g + 1 < f.nLags else 0 < g)

/-! ### Bits of a masked write -/

/-- The ports of a register pair. -/
theorem getLsbD_rtl839xGetPortRegBe (reg : Nat) (r : Regs) {b : Nat} (hb : b < 64) :
    (rtl839xGetPortRegBe reg r).getLsbD b =
      if b < 32 then (r (reg + 4)).getLsbD b else (r reg).getLsbD (b - 32) := by
  unfold rtl839xGetPortRegBe
  rw [BitVec.getLsbD_or, BitVec.getLsbD_shiftLeft, BitVec.getLsbD_setWidth, BitVec.getLsbD_setWidth]
  by_cases h : b < 32
  · simp [h, hb]
  · have hge : 32 ≤ b := by omega
    have hlt : b - 32 < 64 := by omega
    rw [BitVec.getLsbD_of_ge (r (reg + 4)) b hge]
    simp [h, hb, hlt]

/-- Writing bits of a register. -/
theorem getLsbD_swW32Mask (clear set w : U32) {b : Nat} (hb : b < 32) :
    (swW32Mask clear set w).getLsbD b = (w.getLsbD b && !clear.getLsbD b || set.getLsbD b) := by
  simp [swW32Mask, hb]

/-- The upper half of a mask. -/
private theorem getLsbD_high (m : U64) {b : Nat} (hb : b < 32) :
    ((m >>> 32).setWidth 32).getLsbD b = m.getLsbD (b + 32) := by
  rw [BitVec.getLsbD_setWidth, BitVec.getLsbD_ushiftRight, Nat.add_comm 32 b]
  simp [hb]

/-- The lower half of a mask. -/
private theorem getLsbD_low (m : U64) {b : Nat} (hb : b < 32) :
    ((m &&& 0xffffffff#64).setWidth 32).getLsbD b = m.getLsbD b := by
  have hmask : (0xffffffff#64) = (BitVec.allOnes 32).setWidth 64 := by decide
  have hb64 : b < 64 := by omega
  rw [BitVec.getLsbD_setWidth, BitVec.getLsbD_and, hmask, BitVec.getLsbD_setWidth,
    BitVec.getLsbD_allOnes]
  simp [hb, hb64]

/-- The two words of a masked write. -/
theorem getLsbD_rtl839xMaskPortRegBe (clear set : U64) (reg : Nat) (r : Regs) (c : Nat) {b : Nat}
    (hb : b < 32) : (rtl839xMaskPortRegBe clear set reg r c).getLsbD b =
      if c = reg then (r c).getLsbD b && !clear.getLsbD (b + 32) || set.getLsbD (b + 32)
      else if c = reg + 4 then (r c).getLsbD b && !clear.getLsbD b || set.getLsbD b
      else (r c).getLsbD b := by
  have hne : reg ≠ reg + 4 := by omega
  unfold rtl839xMaskPortRegBe
  -- the low word is behind the high one
  by_cases hlow : c = reg + 4
  · subst hlow
    rw [Function.update_self, getLsbD_swW32Mask _ _ _ hb, getLsbD_low _ hb, getLsbD_low _ hb,
      Function.update_of_ne hne.symm, if_neg hne.symm, if_pos rfl]
  · rw [Function.update_of_ne hlow, if_neg hlow]
    by_cases hhigh : c = reg
    · subst hhigh
      rw [Function.update_self, getLsbD_swW32Mask _ _ _ hb, getLsbD_high _ hb, getLsbD_high _ hb,
        if_pos rfl]
    · rw [Function.update_of_ne hhigh, if_neg hhigh]

/-- The families whose registers have 32 bits. -/
private theorem getLsbD_narrow (clear set : U64) (g k : Nat) (r : Regs) {b : Nat} (hb : b < 64) :
    (getPortReg (Function.update r (g <<< 2) (maskPortReg clear set (r (g <<< 2)))
      (k <<< 2))).getLsbD b =
      match (if k = g then if b < 32 then some b else none else none) with
      | some p => (getPortReg (r (k <<< 2))).getLsbD b && !clear.getLsbD p || set.getLsbD p
      | none => (getPortReg (r (k <<< 2))).getLsbD b := by
  by_cases hk : k = g
  · subst hk
    rw [Function.update_self, if_pos rfl]
    -- the register has 32 bits
    by_cases h32 : b < 32
    · rw [getLsbD_getPortReg _ h32, if_pos h32, getLsbD_maskPortReg _ _ _ h32]
      simp only [getLsbD_getPortReg _ h32]
    · have hge : 32 ≤ b := by omega
      simp [getPortReg, h32, hb, BitVec.getLsbD_of_ge _ b hge]
  · have hne : k <<< 2 ≠ g <<< 2 := by
      rw [Nat.shiftLeft_eq, Nat.shiftLeft_eq]
      omega
    rw [Function.update_of_ne hne, if_neg hk]

/-- What a masked write to the register of `g` does to the register of `k`. -/
private theorem getLsbD_memberReg_mask (f : Family) (clear set : U64) (g k : Nat) (r : Regs)
    {b : Nat}
    (hb : b < 64) :
    (memberReg f (f.maskPortRegBe clear set (f.trkMbrCtr g) r) k).getLsbD b =
      match f.source g k b with
      | some p => (memberReg f r k).getLsbD b && !clear.getLsbD p || set.getLsbD p
      | none => (memberReg f r k).getLsbD b := by
  -- the 32-bit families have one word for a group; the others two, which the 9310 lets overlap
  cases f with
  | rtl8380 => exact getLsbD_narrow clear set g k r hb
  | rtl9300 => exact getLsbD_narrow clear set g k r hb
  | rtl8390 =>
    unfold memberReg Family.maskPortRegBe Family.getPortRegBe Family.trkMbrCtr Family.source
      Family.width
    simp only [Nat.shiftLeft_eq, Nat.reducePow]
    rw [getLsbD_rtl839xGetPortRegBe _ _ hb, getLsbD_rtl839xGetPortRegBe _ _ hb]
    by_cases h32 : b < 32
    · rw [if_pos h32, if_pos h32, getLsbD_rtl839xMaskPortRegBe _ _ _ _ _ h32]
      by_cases hk : k = g
      · subst hk
        simp [hb]
      · have hhigh : k * 8 + 4 ≠ g * 8 := by omega
        simp [hk, hhigh]
    · have hb32 : b - 32 < 32 := by omega
      rw [if_neg h32, if_neg h32, getLsbD_rtl839xMaskPortRegBe _ _ _ _ _ hb32]
      by_cases hk : k = g
      · subst hk
        have hback : b - 32 + 32 = b := by omega
        simp [hb, hback]
      · have hhigh : k * 8 ≠ g * 8 := by omega
        have hlow : k * 8 ≠ g * 8 + 4 := by omega
        simp [hk, hhigh, hlow]
  -- groups are one word apart here, so the high word of a group is the low word of the next
  | rtl9310 =>
    unfold memberReg Family.maskPortRegBe Family.getPortRegBe Family.trkMbrCtr Family.source
      Family.width
    simp only [Nat.shiftLeft_eq, Nat.reducePow]
    rw [getLsbD_rtl839xGetPortRegBe _ _ hb, getLsbD_rtl839xGetPortRegBe _ _ hb]
    by_cases h32 : b < 32
    · rw [if_pos h32, if_pos h32, getLsbD_rtl839xMaskPortRegBe _ _ _ _ _ h32]
      by_cases hk : k = g
      · subst hk
        simp [hb]
      · have hge : ¬32 ≤ b := by omega
        by_cases hnext : k + 1 = g
        · have hhigh : k * 4 + 4 = g * 4 := by omega
          simp [hk, hge, h32, hnext, hhigh]
        · have hhigh : k * 4 + 4 ≠ g * 4 := by omega
          simp [hk, hge, hnext, hhigh]
    · have hb32 : b - 32 < 32 := by omega
      rw [if_neg h32, if_neg h32, getLsbD_rtl839xMaskPortRegBe _ _ _ _ _ hb32]
      by_cases hk : k = g
      · subst hk
        have hback : b - 32 + 32 = b := by omega
        simp [hb, hback]
      · have hhigh : k * 4 ≠ g * 4 := by omega
        have hge : 32 ≤ b := by omega
        by_cases hnext : k = g + 1
        · subst hnext
          have hlow : (g + 1) * 4 = g * 4 + 4 := by omega
          simp [hge, hlow]
        · have hlow : k * 4 ≠ g * 4 + 4 := by omega
          simp [hk, h32, hnext, hhigh, hlow]

/-! ### One port -/

/-- Without an overlap only the register of the group changes. -/
private theorem source_eq_some {g k b p : Nat} (hk : k < f.nLags) (hb : b < 64)
    (hover : ¬Overlap f g p) :
    f.source g k b = some p ↔ k = g ∧ b = p ∧ b < f.width := by
  unfold Overlap at hover
  unfold Family.source
  by_cases hkg : k = g
  · rw [if_pos hkg]
    split
    · next hw => simp [hkg, hw]
    · next hw => simp [hw]
  · rw [if_neg hkg]
    -- only the 9310 shows a port of one group in another one
    by_cases hf : f = .rtl9310
    · subst hf
      simp only [true_and] at hover
      simp only [if_true]
      split
      · next h =>
        have hp : ¬b - 32 = p := by
          intro hp
          split at hover <;> omega
        simp [hkg, hp]
      · split
        · next h =>
          have hp : ¬b + 32 = p := by
            intro hp
            split at hover <;> omega
          simp [hkg, hp]
        · simp [hkg]
    · simp [hf, hkg]

/-- The bit of port `p` of the group itself. -/
private theorem source_self {g p : Nat} (hp : p < f.width) : f.source g g p = some p := by
  unfold Family.source
  rw [if_pos rfl, if_pos hp]

/-- In an overlap another register has the bit too. -/
theorem Overlap.exists_source {g p : Nat} (h : Overlap f g p) (hg : g < f.nLags) (hp : p < 64) :
    ∃ k < f.nLags, ∃ b < 64, k ≠ g ∧ f.source g k b = some p := by
  obtain ⟨rfl, h⟩ := h
  by_cases h32 : p < 32
  · rw [if_pos h32] at h
    exact ⟨g + 1, h, p + 32, by omega, by omega, by simp [Family.source]⟩
  · rw [if_neg h32] at h
    have hb32 : p - 32 < 32 := by omega
    have hback : p - 32 + 32 = p := by omega
    obtain ⟨k, rfl⟩ : ∃ k, g = k + 1 := ⟨g - 1, by omega⟩
    have hne : ¬k = k + 1 + 1 := by omega
    exact ⟨k, by omega, p - 32, by omega, by omega, by simp [Family.source, hne, hb32, hback]⟩

/-- A bit that is written for port `p` is that of port `p`. -/
private theorem getLsbD_of_source {g k b p : Nat} (h : f.source g k b = some p) (hb : b < 64)
    (r : Regs) :
    (memberReg f r k).getLsbD b = (memberReg f r g).getLsbD p := by
  unfold Family.source at h
  by_cases hkg : k = g
  · subst hkg
    rw [if_pos rfl] at h
    split at h
    · rw [Option.some.inj h]
    · cases h
  · rw [if_neg hkg] at h
    -- two groups that share a word read the same bit of it
    by_cases hf : f = .rtl9310
    · subst hf
      rw [if_pos rfl] at h
      unfold memberReg Family.getPortRegBe Family.trkMbrCtr
      simp only [Nat.shiftLeft_eq, Nat.reducePow]
      split at h
      · next hnext =>
        obtain ⟨rfl, hge⟩ := hnext
        obtain rfl := Option.some.inj h
        have haddr : (g + 1) * 4 = g * 4 + 4 := by omega
        have hlow : b - 32 < 32 := by omega
        rw [haddr, getLsbD_rtl839xGetPortRegBe _ _ hb,
          getLsbD_rtl839xGetPortRegBe _ _ (by omega), if_neg (by omega), if_pos hlow]
      · split at h
        -- the lower half of one group's register is the upper half of the next one's
        · next hprev =>
          obtain ⟨rfl, hlt⟩ := hprev
          obtain rfl := Option.some.inj h
          have haddr : (k + 1) * 4 = k * 4 + 4 := by omega
          rw [haddr, getLsbD_rtl839xGetPortRegBe _ _ hb,
            getLsbD_rtl839xGetPortRegBe _ _ (by omega), if_pos hlt, if_neg (by omega),
            Nat.add_sub_cancel]
        · cases h
    · rw [if_neg hf] at h
      cases h

end HandsomeMod.Native.Rtl83xx.Lag

/-!
## Changes of a link aggregation group

What `rtl83xx_lag_add` and `rtl83xx_lag_del` do to the groups, and when the groups stay disjoint
and agree with the registers.
-/

namespace HandsomeMod.Native.Rtl83xx.Lag

variable {δ : Type} {f : Family} {s : Priv δ}

/-- Port `p` is in group `g`. -/
def Priv.Member (s : Priv δ) (g p : Nat) : Prop := (s.lagsPortMembers g).getLsbD p = true

instance (s : Priv δ) (g p : Nat) : Decidable (s.Member g p) :=
  inferInstanceAs (Decidable (_ = true))

/-- What holds between the notifications. -/
structure LagsOk (f : Family) (s : Priv δ) : Prop where
  disjoint : ∀ i < f.nLags, ∀ j < f.nLags, ∀ p, s.Member i p → s.Member j p → i = j
  distinct : ∀ i < f.nLags, ∀ j < f.nLags, ∀ d, s.lagDevs i = some d → s.lagDevs j = some d → i = j
  master : ∀ i < f.nLags, s.lagDevs i = none ↔ s.lagsPortMembers i = 0#64
  reg : ∀ i < f.nLags, memberReg f s.regs i = s.lagsPortMembers i

/-! ### Changes of a group -/

/-- The test of `rtl83xx_lag_add` finds a group that has the port with its own number. -/
def Priv.Blocked (f : Family) (s : Priv δ) : Prop := ∃ k < f.nLags, s.Member k k

instance (f : Family) (s : Priv δ) : Decidable (s.Blocked f) :=
  inferInstanceAs (Decidable (∃ k < f.nLags, s.Member k k))

/-- `s` with port `p` added to group `i`. -/
def Priv.added (f : Family) (s : Priv δ) (i p : Nat) : Priv δ :=
  { s with
    regs := f.maskPortRegBe 0#64 (bitUll p) (f.trkMbrCtr i) s.regs
    lagsPortMembers := Function.update s.lagsPortMembers i (s.lagsPortMembers i ||| bitUll p) }

/-- `s` with port `p` removed from group `i`. -/
def Priv.removed (f : Family) (s : Priv δ) (i p : Nat) : Priv δ :=
  { s with
    regs := f.maskPortRegBe (bitUll p) 0#64 (f.trkMbrCtr i) s.regs
    lagsPortMembers := Function.update s.lagsPortMembers i (s.lagsPortMembers i &&& ~~~bitUll p) }

/-- The test for a port. -/
theorem and_bitUll_eq_zero (m : U64) {p : Nat} (hp : p < 64) :
    m &&& bitUll p = 0#64 ↔ m.getLsbD p = false := by
  constructor
  · intro h
    have hbit := congrArg (fun x => BitVec.getLsbD x p) h
    simpa [getLsbD_bitUll hp] using hbit
  · intro h
    apply BitVec.eq_of_getLsbD_eq
    intro j _
    rw [BitVec.getLsbD_and, getLsbD_bitUll hp, BitVec.getLsbD_zero]
    -- the mask has the one bit
    by_cases hj : j = p
    · subst hj
      simp [h]
    · simp [hj]

/-- There are 16 groups at most. -/
theorem Family.nLags_le (f : Family) : f.nLags ≤ 16 := by
  cases f <;> decide

/-- The ports have 64 bits. -/
theorem Family.cpuPort_lt (f : Family) : f.cpuPort < 64 := by
  cases f <;> decide

/-- `rtl83xx_lag_add` on a slot of the table and a port below the CPU port. -/
theorem lagAdd_cases {i p : Nat} (hi : i < f.nLags) (hp : p < f.cpuPort) :
    (s.Blocked f ∧ lagAdd f s i p = .error .enospc) ∨
      (¬s.Blocked f ∧ lagAdd f s i p = .ok (s.added f i p)) := by
  have hn := f.nLags_le
  -- the loop tests the bit of the slot's own number, not of the port
  have hmember : ∀ k, k < f.nLags →
      ((s.lagsPortMembers k &&& bitUll k != 0#64) = true ↔ s.Member k k) := by
    intro k hk
    rw [bne_iff_ne, ne_eq, and_bitUll_eq_zero _ (by omega), Bool.not_eq_false]
    rfl
  unfold lagAdd
  rw [if_neg (Nat.not_le.mpr hi), if_neg (Nat.not_le.mpr hp)]
  by_cases hblocked : s.Blocked f
  · left
    obtain ⟨k, hk, hkk⟩ := hblocked
    have hlt : (List.range f.nLags).findIdx
        (fun i => s.lagsPortMembers i &&& bitUll i != 0#64) < (List.range f.nLags).length :=
      List.findIdx_lt_length_of_exists ⟨k, List.mem_range.mpr hk, (hmember k hk).mpr hkk⟩
    rw [List.length_range] at hlt
    refine ⟨⟨k, hk, hkk⟩, ?_⟩
    rw [if_pos hlt.ne]
  · right
    have heq : (List.range f.nLags).findIdx
        (fun i => s.lagsPortMembers i &&& bitUll i != 0#64) = (List.range f.nLags).length := by
      refine List.findIdx_eq_length_of_false fun k hk => ?_
      have hk' := List.mem_range.mp hk
      rw [Bool.eq_false_iff, ne_eq, hmember k hk']
      exact fun h => hblocked ⟨k, hk', h⟩
    rw [List.length_range] at heq
    refine ⟨hblocked, ?_⟩
    rw [if_neg (not_not.mpr heq)]
    rfl

/-- `rtl83xx_lag_del` on a slot of the table and a port below the CPU port. -/
theorem lagDel_cases {i p : Nat} (hi : i < f.nLags) (hp : p < f.cpuPort) :
    (¬s.Member i p ∧ lagDel f s i p = .error .enospc) ∨
      (s.Member i p ∧ lagDel f s i p = .ok (s.removed f i p)) := by
  have hp64 : p < 64 := by
    have hcpu := f.cpuPort_lt
    omega
  unfold lagDel
  rw [if_neg (Nat.not_le.mpr hi), if_neg (Nat.not_le.mpr hp)]
  -- a port that is no member is refused, any other is taken out
  by_cases hmem : s.Member i p
  · right
    refine ⟨hmem, ?_⟩
    have hne : ¬s.lagsPortMembers i &&& bitUll p = 0#64 := by
      rw [and_bitUll_eq_zero _ hp64, Bool.not_eq_false]
      exact hmem
    rw [if_neg hne]
    rfl
  · left
    refine ⟨hmem, ?_⟩
    rw [if_pos]
    rw [and_bitUll_eq_zero _ hp64]
    exact Bool.eq_false_iff.mpr hmem

/-- A slot outside the table is rejected. -/
theorem lagAdd_of_le {i p : Nat} (hi : f.nLags ≤ i) : lagAdd f s i p = .error .einval := by
  unfold lagAdd
  rw [if_pos hi]

/-- A group behind the last one is refused. -/
theorem lagDel_of_le {i p : Nat} (hi : f.nLags ≤ i) : lagDel f s i p = .error .einval := by
  unfold lagDel
  rw [if_pos hi]

/-- Adding a port to a group. -/
private theorem member_added {i p k b : Nat} (hp : p < 64) :
    (s.added f i p).Member k b ↔ s.Member k b ∨ k = i ∧ b = p := by
  unfold Priv.Member Priv.added
  dsimp only
  by_cases hk : k = i
  · subst hk
    rw [Function.update_self, BitVec.getLsbD_or, getLsbD_bitUll hp]
    simp
  · rw [Function.update_of_ne hk]
    simp [hk]

/-- Taking a port out of a group. -/
private theorem member_removed {i p k b : Nat} (hp : p < 64) :
    (s.removed f i p).Member k b ↔ s.Member k b ∧ ¬(k = i ∧ b = p) := by
  unfold Priv.Member Priv.removed
  dsimp only
  by_cases hk : k = i
  · subst hk
    rw [Function.update_self, BitVec.getLsbD_and, BitVec.getLsbD_not, getLsbD_bitUll hp]
    by_cases hb : b < 64
    · simp [hb]
    · simp [BitVec.getLsbD_of_ge _ b (Nat.le_of_not_lt hb)]
  · rw [Function.update_of_ne hk]
    simp [hk]

/-! ### The invariant after a change -/

/-- After an add the registers agree unless an overlapping one gets a bit that it did not have. -/
private theorem reg_added_iff {i p : Nat} (h : LagsOk f s) (hi : i < f.nLags) (hp : p < f.cpuPort) :
    (∀ k < f.nLags, memberReg f (s.added f i p).regs k = (s.added f i p).lagsPortMembers k) ↔
      s.Member i p ∨ ¬Overlap f i p := by
  have hp64 : p < 64 := lt_trans hp f.cpuPort_lt
  -- what the register holds
  have hreg : ∀ k b, b < 64 → (memberReg f (s.added f i p).regs k).getLsbD b =
      ((memberReg f s.regs k).getLsbD b || decide (f.source i k b = some p)) := by
    intro k b hb
    unfold Priv.added
    rw [getLsbD_memberReg_mask f _ _ i k _ hb]
    cases f.source i k b with
    | none => simp
    | some q => simp [getLsbD_bitUll hp64]
  -- what the table holds
  have hmem : ∀ k b, k < f.nLags → ((s.added f i p).lagsPortMembers k).getLsbD b =
      ((memberReg f s.regs k).getLsbD b || decide (k = i ∧ b = p)) := by
    intro k b hk
    rw [Bool.eq_iff_iff, h.reg k hk, Bool.or_eq_true, decide_eq_true_eq]
    exact member_added hp64
  constructor
  -- an overlap sets a bit of another group, unless it was set before
  · intro hall
    by_contra hno
    obtain ⟨hnot, hover⟩ := not_or.mp hno
    obtain ⟨k, hk, b, hb, hne, hsource⟩ := (not_not.mp hover).exists_source hi hp64
    have hbit := congrArg (fun x => BitVec.getLsbD x b) (hall k hk)
    simp only [hreg k b hb, hmem k b hk, hsource, decide_true, Bool.or_true, hne, false_and,
      decide_false, Bool.or_false] at hbit
    rw [getLsbD_of_source hsource hb, h.reg i hi] at hbit
    exact hnot hbit.symm
  · intro hok k hk
    apply BitVec.eq_of_getLsbD_eq
    intro b hb
    rw [hreg k b hb, hmem k b hk]
    by_cases hover : Overlap f i p
    · -- the port is in the group already
      have hold : s.Member i p := hok.resolve_right (not_not.mpr hover)
      unfold Priv.Member at hold
      rw [← h.reg i hi] at hold
      by_cases hsource : f.source i k b = some p
      · rw [getLsbD_of_source hsource hb, hold]
        simp
      · have hne : ¬(k = i ∧ b = p) := by
          intro heq
          apply hsource
          rw [heq.1, heq.2]
          exact source_self (lt_trans hp f.cpuPort_lt_width)
        simp [hsource, hne]
    -- no overlap: the only bit that changes is the one of the port
    · have hiff := source_eq_some (p := p) hk hb hover
      have hwidth : b = p → b < f.width := fun heq => heq ▸ lt_trans hp f.cpuPort_lt_width
      congr 1
      rw [decide_eq_decide, hiff]
      exact ⟨fun hx => ⟨hx.1, hx.2.1⟩, fun hx => ⟨hx.1, hx.2, hwidth hx.2⟩⟩

/-- After a delete the registers agree unless an overlapping one loses a bit. -/
private theorem reg_removed_iff {i p : Nat} (h : LagsOk f s) (hi : i < f.nLags) (hp : p < f.cpuPort)
    (hmember : s.Member i p) :
    (∀ k < f.nLags, memberReg f (s.removed f i p).regs k = (s.removed f i p).lagsPortMembers k) ↔
      ¬Overlap f i p := by
  have hp64 : p < 64 := lt_trans hp f.cpuPort_lt
  have hreg : ∀ k b, b < 64 → (memberReg f (s.removed f i p).regs k).getLsbD b =
      ((memberReg f s.regs k).getLsbD b && !decide (f.source i k b = some p)) := by
    intro k b hb
    unfold Priv.removed
    rw [getLsbD_memberReg_mask f _ _ i k _ hb]
    cases f.source i k b with
    | none => simp
    | some q => simp [getLsbD_bitUll hp64]
  -- the table loses the port from this group alone
  have hmem : ∀ k b, k < f.nLags → ((s.removed f i p).lagsPortMembers k).getLsbD b =
      ((memberReg f s.regs k).getLsbD b && !decide (k = i ∧ b = p)) := by
    intro k b hk
    rw [Bool.eq_iff_iff, h.reg k hk, Bool.and_eq_true, Bool.not_eq_true', decide_eq_false_iff_not]
    exact member_removed hp64
  constructor
  -- clearing the shared bit takes the port out of the other group as well
  · intro hall hover
    obtain ⟨k, hk, b, hb, hne, hsource⟩ := hover.exists_source hi hp64
    have hbit := congrArg (fun x => BitVec.getLsbD x b) (hall k hk)
    simp only [hreg k b hb, hmem k b hk, hsource, decide_true, Bool.not_true, Bool.and_false, hne,
      false_and, decide_false, Bool.not_false, Bool.and_true] at hbit
    rw [getLsbD_of_source hsource hb, h.reg i hi, hmember] at hbit
    cases hbit
  · intro hover k hk
    apply BitVec.eq_of_getLsbD_eq
    intro b hb
    rw [hreg k b hb, hmem k b hk]
    have hiff := source_eq_some (p := p) hk hb hover
    have hwidth : b = p → b < f.width := fun heq => heq ▸ lt_trans hp f.cpuPort_lt_width
    congr 2
    rw [decide_eq_decide, hiff]
    exact ⟨fun hx => ⟨hx.1, hx.2.1⟩, fun hx => ⟨hx.1, hx.2, hwidth hx.2⟩⟩

/-- `s` after a link that takes the slot `i` for `upper`. -/
def Priv.linked (f : Family) (s : Priv δ) (i p : Nat) (upper : δ) : Priv δ :=
  { s.added f i p with lagDevs := Function.update s.lagDevs i (some upper) }

/-- `s` after an unlink, which frees the slot of an empty group. -/
def Priv.unlinked (f : Family) (s : Priv δ) (i p : Nat) : Priv δ :=
  { s.removed f i p with
    lagDevs := if (s.removed f i p).lagsPortMembers i = 0#64 then Function.update s.lagDevs i none
      else s.lagDevs }

/-- What a link needs: no other group has the port, no other slot has the master. -/
structure LinkFits (f : Family) (s : Priv δ) (i p : Nat) (upper : δ) : Prop where
  reg : s.Member i p ∨ ¬Overlap f i p
  others : ∀ k < f.nLags, k ≠ i → ¬s.Member k p
  masters : s.lagDevs i = none → ∀ k < f.nLags, s.lagDevs k ≠ some upper

/-- Linking a port keeps the groups right exactly if it fits. -/
theorem linked_iff {i p : Nat} {upper : δ} (h : LagsOk f s) (hi : i < f.nLags)
    (hp : p < f.cpuPort) (hfits : s.lagDevs i = none ∨ s.lagDevs i = some upper) :
    LagsOk f (s.linked f i p upper) ↔ LinkFits f s i p upper := by
  have hp64 : p < 64 := lt_trans hp f.cpuPort_lt
  have hmember : ∀ k b, (s.linked f i p upper).Member k b ↔ s.Member k b ∨ k = i ∧ b = p :=
    fun k b => member_added (f := f) hp64
  have hdev : ∀ k, (s.linked f i p upper).lagDevs k = if k = i then some upper else s.lagDevs k := by
    intro k
    unfold Priv.linked
    by_cases hk : k = i
    · subst hk
      simp
    · simp [hk]
  constructor
  -- a new member that is in another group, or a second slot for one master, breaks the state
  · intro hl
    refine ⟨(reg_added_iff h hi hp).mp hl.reg, fun k hk hne hkp => ?_, fun hnone k hk hkd => ?_⟩
    · exact hne (hl.disjoint k hk i hi p ((hmember k p).mpr (Or.inl hkp))
        ((hmember i p).mpr (Or.inr ⟨rfl, rfl⟩)))
    · have hne : k ≠ i := by
        rintro rfl
        rw [hnone] at hkd
        cases hkd
      refine hne (hl.distinct k hk i hi upper ?_ ?_)
      · rw [hdev, if_neg hne, hkd]
      · rw [hdev, if_pos rfl]
  · intro hl
    constructor
    · intro j hj k hk b hjb hkb
      rw [hmember] at hjb hkb
      obtain hjb | ⟨rfl, rfl⟩ := hjb
      · obtain hkb | ⟨rfl, rfl⟩ := hkb
        · exact h.disjoint j hj k hk b hjb hkb
        · by_contra hne
          exact hl.others j hj hne hjb
      · obtain hkb | ⟨rfl, -⟩ := hkb
        · by_contra hne
          exact hl.others k hk (Ne.symm hne) hkb
        · rfl
    · -- another slot with the same master would be the master's own
      have hother : ∀ k < f.nLags, s.lagDevs k = some upper → k = i := by
        intro k hk hkd
        obtain hnone | hsome := hfits
        · exact absurd hkd (hl.masters hnone k hk)
        · exact h.distinct k hk i hi upper hkd hsome
      intro j hj k hk d hjd hkd
      rw [hdev] at hjd hkd
      split at hjd
      · next hji =>
        split at hkd
        · next hki => rw [hji, hki]
        · rw [hji, hother k hk (hkd.trans hjd.symm)]
      · split at hkd
        · next hki => rw [hki, hother j hj (hjd.trans hkd.symm)]
        · exact h.distinct j hj k hk d hjd hkd
    · intro k hk
      -- the group of the slot has a member now, so it has its master
      rw [hdev]
      by_cases hki : k = i
      · subst hki
        rw [if_pos rfl]
        have hbit : (s.linked f k p upper).Member k p := (hmember k p).mpr (Or.inr ⟨rfl, rfl⟩)
        refine ⟨fun hx => absurd hx (Option.some_ne_none upper), fun hzero => ?_⟩
        unfold Priv.Member at hbit
        rw [hzero, BitVec.getLsbD_zero] at hbit
        cases hbit
      · rw [if_neg hki, h.master k hk]
        unfold Priv.linked Priv.added
        dsimp only
        rw [Function.update_of_ne hki]
    · exact (reg_added_iff h hi hp).mpr hl.reg

/-- Unlinking a port keeps the groups right exactly if no registers overlap. -/
theorem unlinked_iff {i p : Nat} (h : LagsOk f s) (hi : i < f.nLags) (hp : p < f.cpuPort)
    (hmem : s.Member i p) : LagsOk f (s.unlinked f i p) ↔ ¬Overlap f i p := by
  have hp64 : p < 64 := lt_trans hp f.cpuPort_lt
  have hmember : ∀ k b, (s.unlinked f i p).Member k b ↔ s.Member k b ∧ ¬(k = i ∧ b = p) :=
    fun k b => member_removed (f := f) hp64
  -- a slot that still has a master had it before
  have hdev : ∀ k d, (s.unlinked f i p).lagDevs k = some d → s.lagDevs k = some d := by
    intro k d hk
    unfold Priv.unlinked at hk
    dsimp only at hk
    split at hk
    · by_cases hki : k = i
      · rw [hki, Function.update_self] at hk
        cases hk
      · rwa [Function.update_of_ne hki] at hk
    · exact hk
  constructor
  · intro hu
    exact (reg_removed_iff h hi hp hmem).mp hu.reg
  -- without an overlap the bits of the other groups stay
  · intro hover
    constructor
    · intro j hj k hk b hjb hkb
      rw [hmember] at hjb hkb
      exact h.disjoint j hj k hk b hjb.1 hkb.1
    · intro j hj k hk d hjd hkd
      exact h.distinct j hj k hk d (hdev j d hjd) (hdev k d hkd)
    -- the slot loses its master with its last member
    · intro k hk
      unfold Priv.unlinked
      dsimp only
      by_cases hki : k = i
      · subst hki
        have hnone : s.lagDevs k ≠ none := by
          rw [ne_eq, h.master k hk]
          intro hzero
          unfold Priv.Member at hmem
          rw [hzero, BitVec.getLsbD_zero] at hmem
          cases hmem
        split
        · next hzero => simp [hzero]
        · next hzero => exact ⟨fun hx => absurd hx hnone, fun hx => absurd hx hzero⟩
      · have hrest : (s.removed f i p).lagsPortMembers k = s.lagsPortMembers k := by
          unfold Priv.removed
          dsimp only
          rw [Function.update_of_ne hki]
        rw [hrest, ← h.master k hk]
        split
        · rw [Function.update_of_ne hki]
        · rfl
    · exact (reg_removed_iff h hi hp hmem).mpr hover

end HandsomeMod.Native.Rtl83xx.Lag
