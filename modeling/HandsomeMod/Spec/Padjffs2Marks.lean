import HandsomeMod.Native.Padjffs2
import HandsomeMod.ForStd.Update

/-!
# Markers at every requested boundary

One loop serves all sizes. Each turn goes to the next boundary of the smallest size that is left,
which is the first boundary of every size that is done with it.
-/

namespace HandsomeMod.Native.Padjffs2

open ForStd

/-! ### Bits of the mask -/

/-- The mask of a boundary is a power of two. -/
private theorem bitMask_toNat {b : Nat} (hb : b < 32) : (bitMask b).toNat = 2 ^ b := by
  rw [bitMask, ← BitVec.twoPow_eq, BitVec.toNat_twoPow_of_lt hb]

/-- The mask below a boundary. -/
private theorem bitMask_sub_one_toNat {b : Nat} (hb : b < 32) : (bitMask b - 1#32).toNat = 2 ^ b - 1
    := by
  have hle : 1#32 ≤ bitMask b := by
    rw [BitVec.le_def, bitMask_toNat hb]
    exact Nat.one_le_two_pow
  rw [BitVec.toNat_sub_of_le hle, bitMask_toNat hb]
  rfl

/-- The mask of a boundary has its bit only. -/
private theorem getLsbD_bitMask {b : Nat} (hb : b < 32) (i : Nat) :
    (bitMask b).getLsbD i = decide (i = b) := by
  rw [bitMask, ← BitVec.twoPow_eq, BitVec.getLsbD_twoPow]
  by_cases h : b = i
  · simp [h, h ▸ hb]
  · simp [h, Ne.symm h]

/-- The test for a boundary. -/
private theorem and_bitMask_ne_zero_iff (m : U32) {b : Nat} (hb : b < 32) :
    m &&& bitMask b ≠ 0#32 ↔ m.getLsbD b = true := by
  constructor
  · intro h
    by_contra hbit
    apply h
    apply BitVec.eq_of_getLsbD_eq
    intro i _
    rw [BitVec.getLsbD_and, getLsbD_bitMask hb]
    -- the mask has the one bit
    by_cases hi : i = b
    · rw [hi, Bool.eq_false_of_not_eq_true hbit]
      simp
    · simp [hi]
  · intro hbit h
    have hzero := congrArg (·.getLsbD b) h
    simp only [BitVec.getLsbD_and, getLsbD_bitMask hb, hbit] at hzero
    simp at hzero

/-- Rounding with a 32-bit mask. -/
private theorem align_eq {x b : Nat} (hb : b < 32) (hx : x < 2 ^ 31) :
    align x (bitMask b) = alignUp x (2 ^ b) := by
  have hlt : x + (2 ^ b - 1) < 2 ^ 32 := by
    have hpow : 2 ^ b ≤ 2 ^ 31 := Nat.pow_le_pow_right Nat.two_pos (by omega)
    omega
  rw [align, BitVec.toNat_not, bitMask_sub_one_toNat hb]
  exact add_and_complement hlt hb.le

/-- The boundaries that are tried. -/
private theorem mem_bits {i : Nat} : i ∈ bits ↔ 10 ≤ i ∧ i < 32 := by
  rw [bits, List.mem_range'_1]

/-- The first loop finds the smallest bit. -/
theorem firstMask_spec {m : U32} (hm : m ≠ 0#32) (hbits : ∀ b, m.getLsbD b = true → 10 ≤ b) :
    ∃ b, m.getLsbD b = true ∧ b < 32 ∧ firstMask m = bitMask b ∧
      ∀ b', m.getLsbD b' = true → b ≤ b' := by
  obtain ⟨b0, hb0⟩ : ∃ b, m.getLsbD b = true := by
    by_contra hnone
    apply hm
    apply BitVec.eq_of_getLsbD_eq
    intro i _
    rw [BitVec.getLsbD_zero]
    exact Bool.eq_false_of_not_eq_true fun hi => hnone ⟨i, hi⟩
  -- the table has every bit that a mask of kilobytes can have
  have hmem : ∀ b, m.getLsbD b = true → b ∈ bits := fun b hb =>
    mem_bits.mpr ⟨hbits b hb, BitVec.lt_of_getLsbD hb⟩
  cases hfind : bits.find? (padBit m) with
  | none =>
    have hoff := List.find?_eq_none.mp hfind b0 (hmem b0 hb0)
    have hon := (and_bitMask_ne_zero_iff m (BitVec.lt_of_getLsbD hb0)).mpr hb0
    exact absurd (decide_eq_true hon) hoff
  | some b =>
    obtain ⟨hon, before, after, hsplit, hbefore⟩ := List.find?_eq_some_iff_append.mp hfind
    have hb : b < 32 := (mem_bits.mp (hsplit ▸ by simp)).2
    refine ⟨b, (and_bitMask_ne_zero_iff m hb).mp (of_decide_eq_true hon), hb, ?_, ?_⟩
    · rw [firstMask, hfind]
    · intro b' hb'
      -- the bits are tried in increasing order, so the first one that is set is the least
      have hsorted : (before ++ b :: after).Pairwise (· < ·) := hsplit ▸ List.pairwise_lt_range'
      have hmem' := hmem b' hb'
      rw [hsplit] at hmem'
      obtain hin | hin := List.mem_append.mp hmem'
      · have hoff := hbefore b' hin
        have hon' : padBit m b' = true :=
          decide_eq_true ((and_bitMask_ne_zero_iff m (BitVec.lt_of_getLsbD hb')).mpr hb')
        rw [hon'] at hoff
        cases hoff
      · obtain rfl | hin := List.mem_cons.mp hin
        · exact le_rfl
        · exact Nat.le_of_lt (List.rel_of_pairwise_cons (List.pairwise_append.mp hsorted).2.1 hin)

/-- The second loop clears the bits of the sizes that `inLen` is a multiple of. -/
private theorem getLsbD_clearBits (inLen : Nat) {m : U32} (hbits : ∀ b, m.getLsbD b = true → 10 ≤ b)
    (b : Nat) :
    (clearBits inLen m).getLsbD b = true ↔ m.getLsbD b = true ∧ ¬2 ^ b ∣ inLen := by
  -- a turn clears its own bit if the length is already a multiple, and no other
  have hturn : ∀ i ∈ bits, ∀ (m : U32) k, (clearBit inLen m i).getLsbD k =
      if k = i then (m.getLsbD i && decide (¬2 ^ i ∣ inLen)) else m.getLsbD k := by
    intro i hi m k
    have hlt := (mem_bits.mp hi).2
    rw [clearBit, bitMask_sub_one_toNat hlt, Nat.and_two_pow_sub_one_eq_mod]
    by_cases hdvd : 2 ^ i ∣ inLen
    · rw [if_pos (Nat.mod_eq_zero_of_dvd hdvd), BitVec.getLsbD_and, BitVec.getLsbD_not,
        getLsbD_bitMask hlt]
      by_cases hk : k = i
      · simp [hk, hdvd]
      · rw [if_neg hk, decide_eq_false hk]
        by_cases hk32 : k < 32
        · simp [hk32]
        · simp [BitVec.getLsbD_of_ge m k (Nat.le_of_not_lt hk32)]
    · rw [if_neg fun hmod => hdvd (Nat.dvd_of_mod_eq_zero hmod)]
      by_cases hk : k = i
      · simp [hk, hdvd]
      · rw [if_neg hk]
  -- each turn of the loop decides one bit
  obtain ⟨hin, hout⟩ := foldl_update (fun (m : U32) k => m.getLsbD k) id
    (fun i old => old && decide (¬2 ^ i ∣ inLen)) (clearBit inLen) (l := bits)
    (by
      rw [List.map_id]
      exact List.nodup_range')
    (by
      intro i hi m k
      rw [hturn i hi m k]
      by_cases hk : k = i
      · simp [hk]
      · simp [hk]) m
  by_cases hb : b ∈ bits
  · show BitVec.getLsbD (bits.foldl (clearBit inLen) m) b = true ↔ _
    rw [show BitVec.getLsbD (bits.foldl (clearBit inLen) m) b = _ from hin b hb]
    simp
  · have hoff : m.getLsbD b = false := by
      apply Bool.eq_false_of_not_eq_true
      intro hon
      exact hb (mem_bits.mpr ⟨hbits b hon, BitVec.lt_of_getLsbD hon⟩)
    show BitVec.getLsbD (bits.foldl (clearBit inLen) m) b = true ↔ _
    rw [show BitVec.getLsbD (bits.foldl (clearBit inLen) m) b = _ from
      hout b (by rwa [List.map_id]), hoff]
    simp

/-! ### Filling -/

/-- The output is filled with ones. -/
private theorem fill_eq {outLen inLen : Nat} (file : List UInt8) (h : outLen ≤ inLen) :
    fill file outLen inLen = (file ++ List.replicate (inLen - outLen) 0xff, inLen) := by
  fun_induction fill file outLen inLen with
  | case1 file outLen hlt len0 len ih =>
    -- a turn writes no more than is missing
    have hlen : len ≤ inLen - outLen := by
      show (if len0 > bufSize then bufSize else len0) ≤ inLen - outLen
      split
      · exact Nat.le_of_lt ‹_›
      · exact le_rfl
    rw [ih (by omega), List.append_assoc, List.replicate_append_replicate]
    congr 3
    omega
  | case2 file outLen hge =>
    obtain rfl : outLen = inLen := by omega
    simp

/-! ### The loop -/

/-- `out` is `file` with a marker at the boundary of every size in `rem`. Positions are counted with
    the extra offset `x`, and boundaries from `l` on. -/
structure Padded (pad : List UInt8) (x l : Nat) (rem : Nat → Prop) (file out : List UInt8) :
    Prop where
  keeps : file <+: out
  mark : ∀ b, rem b → (out.drop (alignUp l (2 ^ b) - x)).take pad.length = pad
  fill : ∀ i, file.length ≤ i → i < out.length → out.getD i 0 = 0xff ∨
    ∃ b, rem b ∧ alignUp l (2 ^ b) ≤ i + x ∧ i + x < alignUp l (2 ^ b) + pad.length
  ends : (∃ b, rem b ∧ out.length + x = alignUp l (2 ^ b) + pad.length) ∨
    out = file ∧ ∀ b, ¬rem b

/-- Without boundaries nothing is padded. -/
private theorem padded_refl (pad : List UInt8) (x l : Nat) {rem : Nat → Prop} (file : List UInt8)
    (hrem : ∀ b, ¬rem b) : Padded pad x l rem file file :=
  ⟨List.prefix_rfl, fun b hb => absurd hb (hrem b), fun _ hi hlt => absurd hlt (Nat.not_lt.mpr hi),
    Or.inr ⟨rfl, hrem⟩⟩

/-- One turn: a marker at the boundary of `b`, which is the boundary of every size that is done. -/
theorem Padded.turn {pad file out : List UInt8} {x l b : Nat} {rem rem' : Nat → Prop}
    (hx : x ≤ l) (hb : rem b) (hlen : file.length + x ≤ alignUp l (2 ^ b))
    (hrem : ∀ b', rem' b' → rem b')
    (hdone : ∀ b', rem b' → ¬rem' b' → alignUp l (2 ^ b') = alignUp l (2 ^ b))
    (h : Padded pad x l rem'
      (file ++ List.replicate (alignUp l (2 ^ b) - (file.length + x)) 0xff ++ pad) out) :
    Padded pad x l rem file out := by
  have hle : l ≤ alignUp l (2 ^ b) := le_alignUp l (Nat.two_pow_pos b)
  obtain ⟨rest, rfl⟩ := h.keeps
  have hfront : (file ++ List.replicate (alignUp l (2 ^ b) - (file.length + x)) 0xff).length =
      alignUp l (2 ^ b) - x := by
    rw [List.length_append, List.length_replicate]
    omega
  constructor
  · rw [List.append_assoc, List.append_assoc]
    exact List.prefix_append _ _
  -- a size that is done has its mark here, the others have it further on
  · intro b' hb'
    by_cases hrem' : rem' b'
    · exact h.mark b' hrem'
    · rw [hdone b' hb' hrem', List.append_assoc, List.drop_left' hfront]
      exact List.take_left' rfl
  · intro i hi hlt
    -- behind this mark by induction, in the mark itself, or in the filling before it
    by_cases hbehind : (file ++ List.replicate (alignUp l (2 ^ b) - (file.length + x)) 0xff ++
        pad).length ≤ i
    · obtain hff | ⟨b', hb', hpos⟩ := h.fill i hbehind hlt
      · exact Or.inl hff
      · exact Or.inr ⟨b', hrem b' hb', hpos⟩
    · by_cases hmark : alignUp l (2 ^ b) - x ≤ i
      · right
        rw [List.length_append, hfront] at hbehind
        exact ⟨b, hb, by omega, by omega⟩
      · left
        rw [List.append_assoc, List.getD_append _ _ _ _ (by rw [hfront]; omega),
          List.getD_append_right _ _ _ _ hi, List.getD_replicate]
        omega
  · left
    obtain ⟨b', hb', hend⟩ | ⟨heq, -⟩ := h.ends
    · exact ⟨b', hrem b' hb', hend⟩
    · refine ⟨b, hb, ?_⟩
      rw [heq, List.length_append, hfront]
      omega

/-- The loop ends, with a marker at the boundary of every size that is left. `c` is the size of the
    last turn. -/
theorem padLoop_spec {pad : List UInt8} (hpad : pad.length ≤ 2 ^ 10) {x l : Nat} (hx : x ≤ l)
    {fuel c outLen inLen : Nat} {file : List UInt8} {m : U32} (hfuel : 32 ≤ fuel + c)
    (hbits : ∀ b, m.getLsbD b = true → 10 ≤ b ∧ c < b)
    (hin : inLen = alignUp l (2 ^ c))
    (hsmall : ∀ b, m.getLsbD b = true → alignUp l (2 ^ b) < 2 ^ 31)
    (hout : ∀ b, m.getLsbD b = true → outLen ≤ alignUp l (2 ^ b))
    (hfile : file.length + x = outLen) :
    ∃ out, padLoop pad fuel file outLen inLen m = some out ∧
      Padded pad x l (fun b => m.getLsbD b = true) file out := by
  -- `c` is the bit of the boundary reached: every bit left is above it, so 32 turns are enough
  induction fuel generalizing c outLen inLen file m with
  | zero =>
    have hnone : ∀ b, ¬m.getLsbD b = true := by
      intro b hb
      have hlt := BitVec.lt_of_getLsbD hb
      have hcb := (hbits b hb).2
      omega
    have hm : m = 0#32 := by
      apply BitVec.eq_of_getLsbD_eq
      intro i _
      rw [BitVec.getLsbD_zero]
      exact Bool.eq_false_of_not_eq_true (hnone i)
    exact ⟨file, by rw [padLoop, if_pos hm], padded_refl pad x l file hnone⟩
  | succ fuel ih =>
    by_cases hm : m = 0#32
    · refine ⟨file, by rw [padLoop, if_pos hm], padded_refl pad x l file fun b => ?_⟩
      rw [hm, BitVec.getLsbD_zero]
      decide
    · obtain ⟨b, hb, hb32, hfirst, hmin⟩ := firstMask_spec hm fun b hb => (hbits b hb).1
      obtain ⟨hb10, hcb⟩ := hbits b hb
      have hcdvd : 2 ^ c ∣ 2 ^ b := Nat.pow_dvd_pow 2 hcb.le
      have hle : inLen ≤ alignUp l (2 ^ b) := by
        rw [hin]
        exact alignUp_le (Nat.two_pow_pos c) (hcdvd.trans (dvd_alignUp l _))
          (le_alignUp l (Nat.two_pow_pos b))
      have halign : align inLen (firstMask m) = alignUp l (2 ^ b) := by
        rw [hfirst, align_eq hb32 (hle.trans_lt (hsmall b hb)), hin]
        exact alignUp_alignUp l (Nat.two_pow_pos c) (Nat.two_pow_pos b) hcdvd
      have hleft : ∀ b', (clearBits (alignUp l (2 ^ b)) m).getLsbD b' = true ↔
          m.getLsbD b' = true ∧ ¬2 ^ b' ∣ alignUp l (2 ^ b) :=
        getLsbD_clearBits _ fun b' hb' => (hbits b' hb').1
      -- a size that is done has its first boundary here
      have hdone : ∀ b', m.getLsbD b' = true →
          ¬(clearBits (alignUp l (2 ^ b)) m).getLsbD b' = true →
          alignUp l (2 ^ b') = alignUp l (2 ^ b) := by
        intro b' hb' hcleared
        have hdvd : 2 ^ b' ∣ alignUp l (2 ^ b) := by
          by_contra hdvd
          exact hcleared ((hleft b').mpr ⟨hb', hdvd⟩)
        exact alignUp_eq_of_dvd (Nat.two_pow_pos b) (Nat.two_pow_pos b')
          (Nat.pow_dvd_pow 2 (hmin b' hb')) hdvd
      -- the boundary of a size that is left lies at least 1 KiB further
      have hnext : ∀ b', (clearBits (alignUp l (2 ^ b)) m).getLsbD b' = true →
          alignUp l (2 ^ b) + pad.length ≤ alignUp l (2 ^ b') := by
        intro b' hb'
        obtain ⟨hon, hndvd⟩ := (hleft b').mp hb'
        have hbb : 2 ^ b ∣ 2 ^ b' := Nat.pow_dvd_pow 2 (hmin b' hon)
        have hge : alignUp l (2 ^ b) ≤ alignUp l (2 ^ b') :=
          alignUp_le (Nat.two_pow_pos b) (hbb.trans (dvd_alignUp l _))
            (le_alignUp l (Nat.two_pow_pos b'))
        have hne : alignUp l (2 ^ b) ≠ alignUp l (2 ^ b') := by
          intro heq
          exact hndvd (heq ▸ dvd_alignUp l _)
        have hstep : 2 ^ 10 ∣ alignUp l (2 ^ b') - alignUp l (2 ^ b) := by
          apply Nat.dvd_sub
          · exact (Nat.pow_dvd_pow 2 (hb10.trans (hmin b' hon))).trans (dvd_alignUp l _)
          · exact (Nat.pow_dvd_pow 2 hb10).trans (dvd_alignUp l _)
        have hkib := Nat.le_of_dvd (by omega) hstep
        omega
      have hfill := fill_eq file (hout b hb)
      rw [← hfile] at hfill
      obtain ⟨out, hrun, hpadded⟩ := ih (c := b) (by omega)
        (fun b' hb' => by
          obtain ⟨hon, hndvd⟩ := (hleft b').mp hb'
          refine ⟨(hbits b' hon).1, Nat.lt_of_le_of_ne (hmin b' hon) ?_⟩
          rintro rfl
          exact hndvd (dvd_alignUp l _))
        rfl (fun b' hb' => hsmall b' ((hleft b').mp hb').1) hnext
        (show (file ++ List.replicate (alignUp l (2 ^ b) - (file.length + x)) 0xff ++
            pad).length + x = _ by
          have hle' := hout b hb
          simp only [List.length_append, List.length_replicate]
          omega)
      refine ⟨out, ?_, hpadded.turn hx hb (hfile ▸ hout b hb)
        (fun b' hb' => ((hleft b').mp hb').1) hdone⟩
      rw [padLoop, if_neg hm]
      simp only [halign, ← hfile, hfill]
      exact hrun

/-! ### The mask of the sizes -/

/-- The sizes `2 ^ b` that an image is padded for: without any, `main` takes 4, 8, 64 and
    128 KiB. -/
def requested (bs : List Nat) : List Nat := if bs = [] then [12, 13, 16, 17] else bs

/-- A size as it is given to `main`. -/
def kib (b : Nat) : Nat := 2 ^ (b - 10)

/-- The mask of the sizes on the command line. -/
private theorem getLsbD_foldl_or (bs : List Nat) (hbs : ∀ b ∈ bs, 10 ≤ b) (m : U32) (i : Nat) :
    ((bs.map kib).foldl (fun m size => m ||| BitVec.ofNat 32 (size * 1024)) m).getLsbD i = true ↔
      m.getLsbD i = true ∨ i < 32 ∧ i ∈ bs := by
  induction bs generalizing m with
  | nil => simp
  | cons b bs ih =>
    have hb : kib b * 1024 = 2 ^ b := by
      rw [kib, show 1024 = 2 ^ 10 by rfl, ← Nat.pow_add,
        Nat.sub_add_cancel (hbs b List.mem_cons_self)]
    rw [List.map_cons, List.foldl_cons, ih (fun b' hb' => hbs b' (List.mem_cons_of_mem b hb')), hb,
      BitVec.getLsbD_or, BitVec.getLsbD_ofNat, Nat.testBit_two_pow]
    simp only [Bool.or_eq_true, Bool.and_eq_true, decide_eq_true_eq, List.mem_cons]
    rw [or_assoc, ← and_or_left, @eq_comm _ b i]

/-- The bits of the mask are the requested sizes, as far as they fit into 32 bits. -/
theorem getLsbD_padMaskOf {bs : List Nat} (hbs : ∀ b ∈ bs, 10 ≤ b) :
    (∃ b ∈ bs, b < 32) ∧
        (∀ i, (padMaskOf (bs.map kib)).getLsbD i = true ↔ i < 32 ∧ i ∈ bs) ∨
      (∀ b ∈ bs, 32 ≤ b) ∧
        ∀ i, (padMaskOf (bs.map kib)).getLsbD i = true ↔ i ∈ [12, 13, 16, 17] := by
  have hfold := getLsbD_foldl_or bs hbs 0#32
  simp only [BitVec.getLsbD_zero, Bool.false_eq_true, false_or] at hfold
  rw [padMaskOf]
  -- no size that fits into the mask: the default sizes are taken
  by_cases hzero :
      (bs.map kib).foldl (fun m size => m ||| BitVec.ofNat 32 (size * 1024)) 0#32 = 0#32
  · right
    rw [hzero] at hfold
    simp only [hzero, if_true]
    constructor
    · intro b hb
      by_contra hlt
      have hbit := (hfold b).mpr ⟨Nat.lt_of_not_le hlt, hb⟩
      rw [BitVec.getLsbD_zero] at hbit
      cases hbit
    · intro i
      by_cases hi : i < 32
      · revert i
        decide
      · constructor
        · intro hbit
          exact absurd (BitVec.lt_of_getLsbD hbit) hi
        · intro hmem
          simp only [List.mem_cons, List.not_mem_nil, or_false] at hmem
          omega
  · left
    constructor
    -- a mask other than zero has a bit, which one of the sizes has set
    · by_contra hnone
      apply hzero
      apply BitVec.eq_of_getLsbD_eq
      intro i hi
      rw [BitVec.getLsbD_zero]
      exact Bool.eq_false_of_not_eq_true fun hbit => hnone ⟨i, ((hfold i).mp hbit).2, hi⟩
    · intro i
      simp only [hzero, if_false]
      exact hfold i

/-! ### The padded file -/

/-- `p` is the first position from the end of the file on where `p + x` is a multiple of `2 ^ b`. -/
def Boundary (len x b p : Nat) : Prop := IsLeast {p | len ≤ p ∧ 2 ^ b ∣ p + x} p

/-- The next boundary behind the data. -/
private theorem boundary_alignUp (len x b : Nat) :
    Boundary len x b (alignUp (len + x) (2 ^ b) - x) := by
  have hle := le_alignUp (len + x) (Nat.two_pow_pos b)
  constructor
  · refine ⟨by omega, ?_⟩
    rw [Nat.sub_add_cancel (by omega)]
    exact dvd_alignUp _ _
  · rintro p ⟨hp, hdvd⟩
    have hleast := alignUp_le (Nat.two_pow_pos b) hdvd (show len + x ≤ p + x by omega)
    omega

/-- The file has a marker at the first boundary of every size and else only `0xff` behind what it
    was before, and ends with a marker. -/
structure Marked (pad : List UInt8) (x : Nat) (bs : List Nat) (file out : List UInt8) : Prop where
  keeps : file <+: out
  mark : ∀ b ∈ bs, ∃ p, Boundary file.length x b p ∧ (out.drop p).take pad.length = pad
  fill : ∀ i, file.length ≤ i → i < out.length → out.getD i 0 = 0xff ∨
    ∃ b ∈ bs, ∃ p, Boundary file.length x b p ∧ p ≤ i ∧ i < p + pad.length
  ends : ∃ b ∈ bs, ∃ p, Boundary file.length x b p ∧ out.length = p + pad.length

/-- Sizes with the same first boundaries as those of the mask. -/
theorem Padded.marked {pad file out : List UInt8} {x : Nat} {rem : Nat → Prop} {bs : List Nat}
    (h : Padded pad x (file.length + x) rem file out) (hne : ∃ b, rem b)
    (hto : ∀ b ∈ bs, ∃ b', rem b' ∧
      alignUp (file.length + x) (2 ^ b') = alignUp (file.length + x) (2 ^ b))
    (hfrom : ∀ b', rem b' → ∃ b ∈ bs,
      alignUp (file.length + x) (2 ^ b') = alignUp (file.length + x) (2 ^ b)) :
    Marked pad x bs file out := by
  have hle := fun b => le_alignUp (file.length + x) (Nat.two_pow_pos b)
  -- sizes with one boundary share their mark
  constructor
  · exact h.keeps
  · intro b hb
    obtain ⟨b', hb', heq⟩ := hto b hb
    refine ⟨_, boundary_alignUp file.length x b, ?_⟩
    rw [← heq]
    exact h.mark b' hb'
  · intro i hi hlt
    obtain hff | ⟨b', hb', hpos, hend⟩ := h.fill i hi hlt
    · exact Or.inl hff
    · obtain ⟨b, hb, heq⟩ := hfrom b' hb'
      have hleb := hle b
      exact Or.inr ⟨b, hb, _, boundary_alignUp file.length x b, by omega, by omega⟩
  · obtain ⟨b', hb', hend⟩ | ⟨-, hnone⟩ := h.ends
    · obtain ⟨b, hb, heq⟩ := hfrom b' hb'
      have hleb := hle b
      exact ⟨b, hb, _, boundary_alignUp file.length x b, by omega⟩
    · obtain ⟨b, hb⟩ := hne
      exact absurd hb (hnone b)

/-- What is padded is not longer than the least size. -/
theorem Pad.length_bytes_le (pad : Pad) : pad.bytes.length ≤ 2 ^ 10 := by
  cases pad <;> decide

/-- Padding an image for any sizes from 1 KiB on, below 2 GiB: it ends, and the file has a marker at
    the first boundary of each of them. -/
theorem padImage_marked (pad : Pad) (x : U32) (file : List UInt8) (bs : List Nat)
    (hbs : ∀ b ∈ bs, 10 ≤ b)
    (htotal : ∀ b ∈ requested bs,
      alignUp (file.length + x.toNat) (2 ^ b) + pad.bytes.length < 2 ^ 31) :
    ∃ out, padImage pad x file (padMaskOf (bs.map kib)) = some out ∧
      Marked pad.bytes x.toNat (requested bs) file out := by
  -- a size that does not fit into 32 bits has its boundary at 0, as all sizes then
  have hempty : ∀ b ∈ requested bs, 32 ≤ b → ∀ n, alignUp (file.length + x.toNat) n = 0 := by
    intro b hb h32 n
    have hlt := htotal b hb
    have hpow : 2 ^ 32 ≤ 2 ^ b := Nat.pow_le_pow_right Nat.two_pos h32
    have hzero : alignUp (file.length + x.toNat) (2 ^ b) = 0 := by
      apply Nat.eq_zero_of_dvd_of_lt (dvd_alignUp _ _)
      omega
    have hle := le_alignUp (file.length + x.toNat) (Nat.two_pow_pos b)
    obtain h0 : file.length + x.toNat = 0 := by omega
    rw [h0, alignUp]
    cases n with
    | zero => rfl
    | succ n => simp
  -- the mask holds the requested sizes, up to sizes with the same boundary
  have hmask : (∀ i, (padMaskOf (bs.map kib)).getLsbD i = true → 10 ≤ i) ∧
      (∃ i, (padMaskOf (bs.map kib)).getLsbD i = true) ∧
      (∀ b ∈ requested bs, ∃ b', (padMaskOf (bs.map kib)).getLsbD b' = true ∧
        alignUp (file.length + x.toNat) (2 ^ b') = alignUp (file.length + x.toNat) (2 ^ b)) ∧
      ∀ b', (padMaskOf (bs.map kib)).getLsbD b' = true → ∃ b ∈ requested bs,
        alignUp (file.length + x.toNat) (2 ^ b') = alignUp (file.length + x.toNat) (2 ^ b) := by
    obtain ⟨⟨b0, hb0, hlt0⟩, hbit⟩ | ⟨hbig, hbit⟩ := getLsbD_padMaskOf hbs
    · have hreq : requested bs = bs := if_neg (List.ne_nil_of_mem hb0)
      rw [hreq] at hempty ⊢
      refine ⟨fun i hi => hbs i ((hbit i).mp hi).2, ⟨b0, (hbit b0).mpr ⟨hlt0, hb0⟩⟩, ?_, ?_⟩
      · intro b hb
        by_cases hlt : b < 32
        · exact ⟨b, (hbit b).mpr ⟨hlt, hb⟩, rfl⟩
        · have hzero := hempty b hb (Nat.le_of_not_lt hlt)
          exact ⟨b0, (hbit b0).mpr ⟨hlt0, hb0⟩, (hzero _).trans (hzero _).symm⟩
      · intro b' hb'
        exact ⟨b', ((hbit b').mp hb').2, rfl⟩
    · have hdefault : (padMaskOf (bs.map kib)).getLsbD 12 = true := (hbit 12).mpr (by decide)
      have hten : ∀ i ∈ [12, 13, 16, 17], 10 ≤ i := by decide
      refine ⟨fun i hi => hten i ((hbit i).mp hi), ⟨12, hdefault⟩, ?_⟩
      -- no size was given, or none that fits, and the defaults stand in
      by_cases hnil : bs = []
      · have hreq : requested bs = [12, 13, 16, 17] := if_pos hnil
        rw [hreq]
        exact ⟨fun b hb => ⟨b, (hbit b).mpr hb, rfl⟩, fun b' hb' => ⟨b', (hbit b').mp hb', rfl⟩⟩
      · have hreq : requested bs = bs := if_neg hnil
        rw [hreq] at hempty ⊢
        obtain ⟨b1, hb1⟩ := List.exists_mem_of_ne_nil bs hnil
        have hzero := hempty b1 hb1 (hbig b1 hb1)
        exact ⟨fun b _ => ⟨12, hdefault, (hzero _).trans (hzero _).symm⟩,
          fun b' _ => ⟨b1, hb1, (hzero _).trans (hzero _).symm⟩⟩
  obtain ⟨hten, hne, hto, hfrom⟩ := hmask
  have hle := fun b => le_alignUp (file.length + x.toNat) (Nat.two_pow_pos b)
  have hx : x.toNat ≤ file.length + x.toNat := Nat.le_add_left _ _
  obtain ⟨out, hrun, hpadded⟩ := padLoop_spec pad.length_bytes_le hx (show 32 ≤ 32 + 0 from le_rfl)
    (fun b hb => ⟨hten b hb, by have hb10 := hten b hb; omega⟩)
    (show file.length + x.toNat = _ by rw [Nat.pow_zero, alignUp_of_dvd Nat.one_pos (one_dvd _)])
    (fun b hb => by
      obtain ⟨b', hb', heq⟩ := hfrom b hb
      have hlt := htotal b' hb'
      omega)
    (fun b _ => hle b) (show file.length + x.toNat = _ from rfl)
  exact ⟨out, hrun, hpadded.marked hne hto hfrom⟩

/-- 5 bytes behind an offset of 3, padded for 1 and 2 KiB. -/
theorem padImage_marked_sample : ∃ out, padImage .eofMark 3 [1, 2, 3, 4, 5]
      (padMaskOf ([10, 11].map kib)) = some out ∧
    Marked Pad.eofMark.bytes 3 (requested [10, 11]) [1, 2, 3, 4, 5] out :=
  padImage_marked .eofMark 3 [1, 2, 3, 4, 5] [10, 11] (by decide) (by decide)

end HandsomeMod.Native.Padjffs2
